import FixedLayout.Proofs.Borrowing

/-!
# Packets

Packets are made by packing values, by copying bytes that have been checked, and by copying those of
a view. The bytes of a view have been checked when it was made, and can be overwritten since.

* `Action`: what makes views and packets, and what ends a view;
* `Course`: what has been done so far, with all packets that have been made;
* `Course.act`, `Course.Rewrites`, `Course.Reached`: the next action, other changes of the
  workspace, and all courses of actions that are allowed, with any such changes between them;
* `Action.Careful`: a view is copied only while its bytes pass the check, and a value is packed only
  if the leaves that this passes over accept zeros;
* `Course.legal_of_reached`: what holds along all courses of careful actions;
* `Course.packets_of_reached`: all packets have as many bytes as their layouts. A packet passes the
  check exactly if the action that made it was careful, and nothing that is done with such packets
  and their views ever fails.
-/

namespace FixedLayout

/-- The layout and the bytes of a packet. -/
def Object.packet? : Object → Option (Layout × Bytes)
  | .plain (.packet layout content) => some (layout, content)
  | _ => none

/-- The packets among the objects that an action gives. -/
def packetsIn : Except Fault (List Object) → List (Layout × Bytes)
  | .ok os => os.filterMap Object.packet?
  | .error _ => []

theorem mem_packetsIn {r : Except Fault (List Object)} {p : Layout × Bytes}
    (h : p ∈ packetsIn r) : ∃ os, r = .ok os ∧ p ∈ os.filterMap Object.packet? := by
  cases r with
  | ok os => exact ⟨os, rfl, h⟩
  | error fault => cases h

/-! ### Actions -/

/-- What makes views and packets, and what ends a view. -/
inductive Action
  | pack (o : Object) (t : Option TypeExpr)
  | packet (t : TypeExpr) (data : Object)
  | view (t : TypeExpr) (data : Object)
  | field (id : Nat) (name : String)
  | index (id : Nat) (i : Value)
  | entries (id : Nat)
  | reversed (id : Nat)
  | toOwned (id : Nat)
  | borrow (layout : Layout) (content : Bytes)
  | release (id : Nat)

/-- What has been done so far: the workspace that this has led to, the buffers of immutable bytes
and of packets, and all packets that have been made. -/
structure Course where
  workspace : Workspace
  frozen : List Nat
  packets : List (Layout × Bytes)

namespace Action

/-- Carries out an action, and gives the views or the packet that it makes. -/
def perform : Action → Session (List Object)
  | .pack o t => do return [← Session.pack o t]
  | .packet t data => do return [← Session.packet t data]
  | .view t data => do return [← Session.view t data]
  | .field id name => do return [← Session.field (.view id) name]
  | .index id i => do return [← Session.index (.view id) i]
  | .entries id => Session.entries (.view id)
  | .reversed id => Session.reversedEntries (.view id)
  | .toOwned id => do return [← Session.toOwned (.view id)]
  | .borrow layout content => do return [← Session.borrow (.plain (.packet layout content))]
  | .release id => do
    Session.release (.view id)
    return []

/-- An action can be asked for: types have no negative lengths, bytes lie in the buffers that there
are, and packets are such that have been made. -/
def Possible (s : Course) : Action → Prop
  | .pack o t => ∀ l, (Session.layoutFor (s.workspace.store.valueOf o) t s.workspace).1 = .ok l →
    l.LengthsNonneg
  | .packet t data | .view t data => data.Within s.workspace.store ∧
    ∀ l, (s.workspace.catalog.compile t s.workspace.cache).1 = .ok l → l.LengthsNonneg
  | .borrow layout content => (layout, content) ∈ s.packets
  | _ => True

/-- A view is copied only while its bytes pass the check, and a value is packed only if the leaves
that this passes over accept zeros. -/
def Careful (s : Course) : Action → Prop
  | .pack o t => ∀ l content,
    (Session.layoutFor (s.workspace.store.valueOf o) t s.workspace).1 = .ok l →
      l.pack (s.workspace.store.valueOf o) = .ok content →
        ∀ leaf ∈ (l.trace (s.workspace.store.valueOf o)).passedOver,
          leaf.layout.Accepts (Bytes.zeros leaf.layout.size.toNat)
  | .toOwned id => ∀ cell, s.workspace.store.views[id]? = some cell → cell.released = false →
    cell.layout.check (s.workspace.store.read cell.window) = .ok ()
  | _ => True

/-- Packing a value in which no positional instance lacks fields is careful. -/
theorem careful_of_whole {s : Course} {o : Object} {t : Option TypeExpr}
    (hpossible : (Action.pack o t).Possible s) (h : (s.workspace.store.valueOf o).Whole) :
    (Action.pack o t).Careful s := by
  intro l content hlayout _ leaf hleaf
  rw [Layout.passedOver_of_whole (hpossible l hlayout) h] at hleaf
  cases hleaf

end Action

namespace Course

/-- The course after one more action. Buffers that the action adds are those of immutable bytes, or
of a packet. -/
def act (s : Course) (a : Action) : Course :=
  let (r, w) := a.perform s.workspace
  let old := s.workspace.store.buffers.length
  ⟨w, s.frozen ++ List.range' old (w.store.buffers.length - old), s.packets ++ packetsIn r⟩

/-- Anything else that may happen: definitions and objects are added, and buffers are overwritten,
those of immutable bytes and of packets apart. While views depend on it, a buffer cannot change its
length. -/
structure Rewrites (s : Course) (w : Workspace) : Prop where
  cache : Cache.Reached w.cache
  views : w.store.views = s.workspace.store.views
  buffers : ∀ id content, s.workspace.store.buffers[id]? = some content → ∃ now,
    w.store.buffers[id]? = some now ∧ now.length = content.length ∧ (id ∈ s.frozen → now = content)

/-- The courses of actions of a kind, with any changes between them. -/
inductive Reached (allowed : Course → Action → Prop) : Course → Prop
  | start {w : Workspace} : Cache.Reached w.cache → w.store.views = [] → Reached allowed ⟨w, [], []⟩
  | act {s : Course} {a : Action} : Reached allowed s → a.Possible s → allowed s a →
    Reached allowed (s.act a)
  | change {s : Course} {w : Workspace} : Reached allowed s → s.Rewrites w →
    Reached allowed { s with workspace := w }

end Course

/-- A packet has as many bytes as its layout. -/
structure Fits (packet : Layout × Bytes) : Prop where
  regular : packet.1.Regular
  size : (packet.2.length : Int) = packet.1.size

/-! ### Single actions -/

/-- There are as many bytes of a value as its layout has. They pass the check exactly if the leaves
that were passed over accept zeros. -/
theorem Layout.check_pack_iff {l : Layout} (hl : l.LengthsNonneg) {v : Value} {content : Bytes}
    (h : l.pack v = .ok content) :
    (content.length : Int) = l.size ∧ (l.check content = .ok () ↔
      ∀ leaf ∈ (l.trace v).passedOver,
        leaf.layout.Accepts (Bytes.zeros leaf.layout.size.toNat)) := by
  obtain ⟨hok, rfl⟩ := (Layout.pack_eq_ok_iff hl).1 h
  have hzeros := Layout.length_zeros (l.size_nonneg hl)
  refine ⟨by rw [Bytes.length_overlay, hzeros], ?_⟩
  rw [Layout.check_overlay_iff hl hok hzeros]
  refine forall_congr' fun leaf => forall_congr' fun hleaf => ?_
  have hmem := Layout.mem_leaves_of_visit (Trace.mem_passedOver.1 hleaf)
  rw [Leaf.Holds, Layout.range_zeros hl hmem]

section Actions

variable {s : Course} {a : Action} {fixed : Nat → Prop}

/-- An action leaves all views sound. The packets that it makes have as many bytes as their layouts,
and pass the check exactly if the action was careful. -/
theorem Action.safe_perform (hw : s.workspace.Sound fixed) (hfits : ∀ p ∈ s.packets, Fits p)
    (hcheck : fixed s.workspace.store.buffers.length → ∀ p ∈ s.packets, p.1.check p.2 = .ok ())
    (ha : a.Possible s) :
    Session.Safe fixed a.perform s.workspace fun _ os => ∀ p ∈ os.filterMap Object.packet?,
      Fits p ∧ (p.1.check p.2 = .ok () ↔ a.Careful s) := by
  have hsingle : ∀ {o : Object} {P : Layout × Bytes → Prop}, (∃ id, o = .view id) →
      ∀ p ∈ [o].filterMap Object.packet?, P p := by
    rintro o P ⟨id, rfl⟩ p hp
    cases hp
  have hmade : ∀ {l : Layout} {content : Bytes} {P : Layout × Bytes → Prop}, P (l, content) →
      ∀ p ∈ [Object.plain (.packet l content)].filterMap Object.packet?, P p := by
    intro l content P h p hp
    rw [List.mem_singleton.1 hp]
    exact h
  have hviews : ∀ {os : List Object} {P : Layout × Bytes → Prop}, (∀ o ∈ os, ∃ id, o = .view id) →
      ∀ p ∈ os.filterMap Object.packet?, P p := by
    intro os P hos p hp
    obtain ⟨o, ho, hpacket⟩ := List.mem_filterMap.1 hp
    obtain ⟨id, rfl⟩ := hos o ho
    cases hpacket
  cases a with
  | pack o t =>
    refine (Session.safe_pack hw o t).bind fun made after hafter _ h => ?_
    obtain ⟨l, content, hlayout, hnames, hfitting, hpack, rfl⟩ := h
    obtain ⟨hlen, hiff⟩ := Layout.check_pack_iff (ha l hlayout) hpack
    refine Session.safe_pure hafter (hmade ⟨⟨⟨ha l hlayout, hnames, hfitting⟩, hlen⟩, ?_⟩)
    constructor
    · intro hok other bytes hother hbytes
      cases hlayout.symm.trans hother
      exact hiff.1 hok
    · exact fun h => hiff.2 (h l content hlayout hpack)
  | packet t data =>
    refine (Session.safe_packet hw ha.2 ha.1).bind fun made after hafter _ h => ?_
    obtain ⟨l, content, hl, hlen, hok, rfl⟩ := h
    exact Session.safe_pure hafter (hmade ⟨⟨hl, hlen⟩, iff_of_true hok trivial⟩)
  | view t data =>
    refine (Session.safe_view hw ha.2 ha.1).bind fun made after hafter _ h => ?_
    exact Session.safe_pure hafter (hsingle h)
  | field id name =>
    refine (Session.safe_field hw id name).bind fun made after hafter _ h => ?_
    exact Session.safe_pure hafter (hsingle h)
  | index id i =>
    refine (Session.safe_index hw id i).bind fun made after hafter _ h => ?_
    exact Session.safe_pure hafter (hsingle h)
  | entries id => exact (Session.safe_entries hw id).imp fun _ _ h => hviews h
  | reversed id => exact (Session.safe_reversedEntries hw id).imp fun _ _ h => hviews h
  | toOwned id =>
    refine (Session.safe_toOwned hw id).bind fun made after hafter _ h => ?_
    obtain ⟨cell, hcell, hlive, rfl⟩ := h
    have hsound := hw.views cell (List.mem_of_getElem? hcell)
    refine Session.safe_pure hafter (hmade ⟨⟨hsound.regular, hsound.length_read⟩, ?_⟩)
    constructor
    · intro hok other hother _
      cases hcell.symm.trans hother
      exact hok
    · exact fun h => h cell hcell hlive
  | borrow layout content =>
    obtain ⟨hl, hlen⟩ := hfits _ ha
    refine (Session.safe_borrow hw hl hlen fun hfixed => hcheck hfixed _ ha).bind ?_
    rintro made after hafter - ⟨id, rfl, -⟩
    exact Session.safe_pure hafter (hsingle ⟨id, rfl⟩)
  | release id =>
    refine (Session.safe_release hw id).bind fun _ after hafter _ _ => ?_
    exact Session.safe_pure hafter fun p hp => absurd hp List.not_mem_nil

end Actions

/-! ### Courses -/

/-- Packing a value into a buffer does not change the length of the buffer. -/
theorem Layout.length_packInto {l : Layout} (hl : l.LengthsNonneg) (v : Value) (offset : Int)
    (buffer : Bytes) : (l.packInto v offset buffer).2.length = buffer.length := by
  by_cases hroom : offset < 0 ∨ (buffer.length : Int) < offset + l.size
  · unfold packInto
    simp only [hroom, if_true]
  · have hsize := l.size_nonneg hl
    have hsplit : buffer.take offset.toNat ++ Bytes.slice buffer offset (offset + l.size) ++
        buffer.drop (offset + l.size).toNat = buffer :=
      Bytes.take_slice_drop (by omega) (by omega) (by omega)
    have hmid : ((Bytes.slice buffer offset (offset + l.size)).length : Int) = l.size := by
      rw [Bytes.length_slice_of_le (by omega) (by omega) (by omega)]
      omega
    have hpre : offset = (buffer.take offset.toNat).length := by
      rw [List.length_take]
      omega
    have hpack := Layout.packInto_eq hl v hpre hmid (buffer.drop (offset + l.size).toNat)
    have hlen := congrArg List.length hsplit
    rw [hsplit] at hpack
    rw [hpack]
    simp only [List.length_append, Bytes.length_overlay] at hlen ⊢
    exact hlen

namespace Course

variable {s : Course} {a : Action} {w : Workspace} {fixed : Nat → Prop}

/-- The packets after an action are those before it and those that it makes. -/
theorem mem_packets_act {p : Layout × Bytes} (hp : p ∈ (s.act a).packets) :
    p ∈ s.packets ∨ ∃ os, (a.perform s.workspace).1 = .ok os ∧ p ∈ os.filterMap Object.packet? := by
  rcases List.mem_append.1 hp with hold | hnew
  · exact Or.inl hold
  · exact Or.inr (mem_packetsIn hnew)

/-- Other changes leave views sound, as long as the buffers of which something is asked are among
those that nobody writes to. -/
theorem Rewrites.sound (h : s.Rewrites w) (hs : s.workspace.Sound fixed)
    (hfixed : ∀ id, fixed id → id ∈ s.frozen) : w.Sound fixed := by
  refine ⟨h.cache, fun cell hcell => ?_⟩
  obtain ⟨hregular, ⟨content, hcontent, hroom⟩, hsize, hcheck⟩ := hs.views cell (h.views ▸ hcell)
  obtain ⟨now, hnow, hlen, hsame⟩ := h.buffers _ content hcontent
  refine ⟨hregular, ⟨now, hnow, by omega⟩, hsize, fun hbuffer => ?_⟩
  obtain rfl := hsame (hfixed _ hbuffer)
  have hread : w.store.read cell.window = s.workspace.store.read cell.window := by
    rw [Store.read, Store.read, Store.content_of_getElem? hnow, Store.content_of_getElem? hcontent]
  rw [hread]
  exact hcheck hbuffer

/-- Bytes that are written in place of as many others are such a change, if the buffer is one that
can be written to. -/
theorem rewrites_write {cache : Cache} (hcache : Cache.Reached cache) {window : Window}
    (hwindow : window.buffer ∉ s.frozen) {data : Bytes}
    (hlen : data.length = (s.workspace.store.read window).length) :
    s.Rewrites { s.workspace with cache, store := s.workspace.store.write window data } := by
  refine ⟨hcache, rfl, fun id content hcontent => ?_⟩
  have hwrite : (s.workspace.store.write window data).buffers = s.workspace.store.buffers.set
      window.buffer (Bytes.overwrite (s.workspace.store.content window.buffer) window.start data) :=
    rfl
  rw [hwrite]
  by_cases hid : window.buffer = id
  · subst hid
    obtain ⟨hlt, -⟩ := List.getElem?_eq_some_iff.1 hcontent
    rw [Store.read, Store.content_of_getElem? hcontent, List.length_take, List.length_drop] at hlen
    rw [Store.content_of_getElem? hcontent]
    refine ⟨_, List.getElem?_set_self hlt, ?_, fun hfrozen => absurd hfrozen hwindow⟩
    unfold Bytes.overwrite
    rw [List.length_append, List.length_append, List.length_take, List.length_drop]
    omega
  · exact ⟨content, by rw [List.getElem?_set_ne hid, hcontent], rfl, fun _ => rfl⟩

/-- Encoding into a buffer that can be written to is such a change. -/
theorem rewrites_encodeInto {o b : Object} {t : Option TypeExpr} {type : TypeExpr} {l : Layout}
    (hcache : Cache.Reached s.workspace.cache)
    (htype : inferType (s.workspace.store.valueOf o) t = .ok type)
    (hlayout : (s.workspace.catalog.compile type s.workspace.cache).1 = .ok l)
    (hl : l.LengthsNonneg) {window : Window} (hwindow : b.target? s.workspace.store = some window)
    (hfrozen : window.buffer ∉ s.frozen) (offset : Int) :
    s.Rewrites (Session.encodeInto o b t offset s.workspace).2 := by
  rw [Session.encodeInto_eq htype hlayout hwindow offset]
  exact rewrites_write (.compile _ _ hcache) hfrozen (Layout.length_packInto hl _ _ _)

/-- All packets have as many bytes as their layouts, and all views as well. -/
structure Sized (s : Course) : Prop where
  workspace : s.workspace.Sound fun _ => False
  packets : ∀ p ∈ s.packets, Fits p

/-- All packets pass the check, and so do the bytes of all views of bytes that nobody writes to. -/
structure Legal (s : Course) : Prop where
  workspace : s.workspace.Sound (· ∈ s.frozen)
  packets : ∀ p ∈ s.packets, Fits p ∧ p.1.check p.2 = .ok ()

theorem Sized.act (h : s.Sized) (ha : a.Possible s) : (s.act a).Sized := by
  have hsafe := Action.safe_perform h.workspace h.packets (fun hfalse => hfalse.elim) ha
  refine ⟨hsafe.sound, fun p hp => ?_⟩
  rcases mem_packets_act hp with hold | ⟨os, hos, hnew⟩
  · exact h.packets p hold
  · exact (hsafe.result os hos p hnew).1

theorem Legal.act (h : s.Legal) (ha : a.Possible s) (hcareful : a.Careful s) :
    (s.act a).Legal := by
  -- While the action goes on, the buffers that it adds count as frozen, whatever their numbers.
  let fixed := fun id => id ∈ s.frozen ∨ s.workspace.store.buffers.length ≤ id
  have hw : s.workspace.Sound fixed := by
    refine h.workspace.imp fun cell hcell hfixed => ?_
    obtain ⟨content, hcontent, -⟩ := (h.workspace.views cell hcell).within
    obtain ⟨hlt, -⟩ := List.getElem?_eq_some_iff.1 hcontent
    rcases hfixed with hfrozen | hle
    · exact hfrozen
    · omega
  have hsafe := Action.safe_perform hw (fun p hp => (h.packets p hp).1)
    (fun _ p hp => (h.packets p hp).2) ha
  constructor
  · refine hsafe.sound.imp fun cell hcell hfrozen => ?_
    rcases List.mem_append.1 hfrozen with hold | hnew
    · exact Or.inl hold
    · exact Or.inr (List.mem_range'_1.1 hnew).1
  · intro p hp
    rcases mem_packets_act hp with hold | ⟨os, hos, hnew⟩
    · exact h.packets p hold
    · obtain ⟨hfits, hiff⟩ := hsafe.result os hos p hnew
      exact ⟨hfits, hiff.2 hcareful⟩

/-- All packets and views have as many bytes as their layouts, along all courses. -/
theorem sized_of_reached {allowed : Course → Action → Prop} (h : Reached allowed s) : s.Sized := by
  induction h with
  | start hcache hviews =>
    refine ⟨⟨hcache, fun cell hcell => ?_⟩, fun p hp => absurd hp List.not_mem_nil⟩
    rw [hviews] at hcell
    cases hcell
  | act _ ha _ ih => exact ih.act ha
  | change _ hw ih => exact ⟨hw.sound ih.workspace fun _ hfalse => hfalse.elim, ih.packets⟩

/-- All packets and the bytes of all views of bytes that nobody writes to pass the check, along all
courses of careful actions. -/
theorem legal_of_reached {allowed : Course → Action → Prop}
    (hallowed : ∀ s a, allowed s a → a.Careful s) (h : Reached allowed s) : s.Legal := by
  induction h with
  | start hcache hviews =>
    refine ⟨⟨hcache, fun cell hcell => ?_⟩, fun p hp => absurd hp List.not_mem_nil⟩
    rw [hviews] at hcell
    cases hcell
  | act _ ha hact ih => exact ih.act ha (hallowed _ _ hact)
  | change _ hw ih => exact ⟨hw.sound ih.workspace fun _ hid => hid, ih.packets⟩

end Course

/-! ### What is done with packets -/

namespace Session

variable {w : Workspace} {o : Object} {l : Layout} {data : Bytes}

/-- A view is unpacked without fail, and so are the views of all parts that can be reached from it:
to the components of its value. -/
def Unpacks (w : Workspace) (o : Object) (l : Layout) (data : Bytes) : Prop :=
  ∃ v, l.decode data = .ok v ∧ Returns (unpack o) w v ∧
    ∀ path, l.Admits path → ∃ part reached final, l.component v path = some part ∧
      walk o path w = (.ok reached, final) ∧ Returns (unpack reached) final part

/-- A view of bytes that pass the check never fails. -/
theorem IsView.unpacks {buffer offset : Nat} (h : IsView w o l buffer offset data) (hl : l.Regular)
    (hcheck : l.check data = .ok ()) : Unpacks w o l data := by
  obtain ⟨v, hv, -⟩ := l.exists_decode hl.lengths hl.names data h.length hcheck
  refine ⟨v, hv, h.returns_unpack hv, fun path hpath => ?_⟩
  obtain ⟨start, sub, hfollow, -, -, -⟩ := Layout.exists_follow hl hpath
  obtain ⟨part, hpart, -, hdecoded⟩ := Layout.follow_spec hl h.length hcheck hv hpath hfollow
  obtain ⟨reached, final, hwalk, -, hreached⟩ := walk_addsViews h hl hpath hfollow
  exact ⟨part, reached, final, hpart, hwalk, hreached.returns_unpack hdecoded⟩

/-- A packet of bytes that pass the check is unpacked without fail. -/
theorem exists_unpack_packet (hl : l.Regular) (hlen : (data.length : Int) = l.size)
    (hcheck : l.check data = .ok ()) (w : Workspace) :
    ∃ v, l.decode data = .ok v ∧ Returns (unpack (.plain (.packet l data))) w v := by
  obtain ⟨v, hv, -⟩ := l.exists_decode hl.lengths hl.names data hlen hcheck
  exact ⟨v, hv, unpackBytes_of_ok hv⟩

end Session

namespace Course

/-- All packets have as many bytes as their layouts, whatever has been done, and a packet passes the
check exactly if the action that makes it is careful. Where all actions have been careful, all
packets pass the check and are unpacked without fail, whatever has been written to other buffers. So
are the views of packets, and the views of parts of these: a packet is lent as a buffer that nobody
writes to, and no view of such a buffer fails until it is released. -/
theorem packets_of_reached {allowed : Course → Action → Prop} {s : Course}
    (h : Reached allowed s) :
    (∀ p ∈ s.packets, (p.2.length : Int) = p.1.size) ∧
    (∀ a : Action, a.Possible s → ∀ p ∈ packetsIn (a.perform s.workspace).1,
      (p.1.check p.2 = .ok () ↔ a.Careful s)) ∧
    ((∀ s a, allowed s a → a.Careful s) →
      (∀ p ∈ s.packets, p.1.check p.2 = .ok () ∧
        (∃ v, p.1.decode p.2 = .ok v ∧
          Session.Returns (Session.unpack (.plain (.packet p.1 p.2))) s.workspace v) ∧
        ∃ id buffer, (Session.borrow (.plain (.packet p.1 p.2)) s.workspace).1 = .ok (.view id) ∧
          (s.act (.borrow p.1 p.2)).workspace.store.views[id]? =
            some ⟨p.1, ⟨buffer, 0, p.2.length⟩, false⟩ ∧
          buffer ∈ (s.act (.borrow p.1 p.2)).frozen) ∧
      ∀ id cell, s.workspace.store.views[id]? = some cell → cell.released = false →
        cell.window.buffer ∈ s.frozen →
          Session.Unpacks s.workspace (.view id) cell.layout
            (s.workspace.store.read cell.window)) := by
  have hsized := sized_of_reached h
  refine ⟨fun p hp => (hsized.packets p hp).size, fun a ha p hp => ?_, fun hallowed => ⟨?_, ?_⟩⟩
  · obtain ⟨os, hos, hmade⟩ := mem_packetsIn hp
    have hsafe := Action.safe_perform hsized.workspace hsized.packets
      (fun hfalse => hfalse.elim) ha
    exact (hsafe.result os hos p hmade).2
  · intro p hp
    obtain ⟨hfits, hcheck⟩ := (legal_of_reached hallowed h).packets p hp
    refine ⟨hcheck, Session.exists_unpack_packet hfits.regular hfits.size hcheck _, ?_⟩
    refine ⟨s.workspace.store.views.length, s.workspace.store.buffers.length, rfl,
      List.getElem?_concat_length, List.mem_append_right _ (List.mem_range'_1.2 ⟨le_refl _, ?_⟩)⟩
    show _ < _ + ((s.workspace.store.buffers ++ [p.2]).length - s.workspace.store.buffers.length)
    rw [List.length_append, List.length_singleton]
    omega
  · rintro id ⟨l, ⟨buffer, offset, count⟩, released⟩ hcell rfl hfrozen
    have hsound := (legal_of_reached hallowed h).workspace.views _ (List.mem_of_getElem? hcell)
    have hview : Session.IsView s.workspace (.view id) l buffer offset _ :=
      ⟨⟨id, count, rfl, hcell, rfl⟩, hsound.length_read⟩
    exact hview.unpacks hsound.regular (hsound.check hfrozen)

/-! ### Views of buffers that are overwritten -/

/-- An enumeration with one member. -/
def kindLayout : Layout := .enumeration (.mk "Kind" false .u8 [("ONE", 1)])

/-- A workspace with the definition of the enumeration and a buffer of one byte. -/
def kindWorkspace : Workspace :=
  ⟨[.enumeration (.declare "Kind" false (.text "u8") ["ONE"] [.int 1] (by decide))], [],
    ⟨[[1]], [], []⟩, []⟩

/-- A view of the buffer has been made while it held the member. -/
def viewed : Course := act ⟨kindWorkspace, [], []⟩ (.view (.named "Kind") (.buffer 0))

/-- The buffer has been overwritten with a byte that no member has. -/
def overwritten (s : Course) : Course :=
  { s with workspace := { s.workspace with store := { s.workspace.store with buffers := [[5]] } } }

theorem views_viewed : viewed.workspace.store.views = [⟨kindLayout, ⟨0, 0, 1⟩, false⟩] := by
  cbv

theorem reached_viewed {allowed : Course → Action → Prop}
    (h : allowed ⟨kindWorkspace, [], []⟩ (.view (.named "Kind") (.buffer 0))) :
    Reached allowed viewed := by
  have hlayout : (kindWorkspace.catalog.compile (.named "Kind") []).1 = .ok kindLayout := by cbv
  refine .act (.start .empty rfl) ⟨Nat.zero_lt_one, fun l hl => ?_⟩ h
  cases hlayout.symm.trans hl
  trivial

theorem reached_overwritten {allowed : Course → Action → Prop} (h : Reached allowed s)
    (hbuffers : s.workspace.store.buffers = [[1]]) (hfrozen : s.frozen = []) :
    Reached allowed s.overwritten := by
  refine .change h ⟨(sized_of_reached h).workspace.cache, rfl, fun id content hcontent => ?_⟩
  rw [hbuffers] at hcontent
  rw [hfrozen]
  match id with
  | 0 =>
    cases hcontent
    exact ⟨[5], rfl, rfl, fun hmem => absurd hmem List.not_mem_nil⟩
  | _ + 1 => cases hcontent

/-- A packet that was copied before the buffer was overwritten is unpacked without fail. -/
theorem packet_outlives_buffer : ∃ s : Course, Reached (fun s a => a.Careful s) s ∧
    s.workspace.store.buffers = [[5]] ∧ (kindLayout, [1]) ∈ s.packets ∧
      kindLayout.check [1] = .ok () ∧ ∃ v, kindLayout.decode [1] = .ok v ∧
        Session.Returns (Session.unpack (.plain (.packet kindLayout [1]))) s.workspace v := by
  have hcareful : (Action.toOwned 0).Careful viewed := by
    intro cell hcell _
    rw [views_viewed] at hcell
    cases hcell
    cbv
  have hreached : Reached (fun s a => a.Careful s) (viewed.act (.toOwned 0)).overwritten := by
    refine reached_overwritten (.act (reached_viewed trivial) trivial hcareful) ?_ ?_ <;> cbv
  have hmem : (kindLayout, [1]) ∈ (viewed.act (.toOwned 0)).overwritten.packets := by
    have hpackets : (viewed.act (.toOwned 0)).packets = [(kindLayout, [1])] := by cbv
    rw [show (viewed.act (.toOwned 0)).overwritten.packets = _ from hpackets]
    exact List.mem_singleton_self _
  obtain ⟨hcheck, hunpack, -⟩ := ((packets_of_reached hreached).2.2 fun _ _ h => h).1 _ hmem
  exact ⟨_, hreached, rfl, hmem, hcheck, hunpack⟩

/-- A packet that is copied from a view after its buffer was overwritten does not pass the check and
cannot be unpacked. Neither does one of a value that lacks a field. -/
theorem stale_packet_is_not_legal :
    (∃ s : Course, Reached (fun _ _ => True) s ∧ (kindLayout, [5]) ∈ s.packets ∧
      kindLayout.check [5] ≠ .ok () ∧
      (Session.unpack (.plain (.packet kindLayout [5])) s.workspace).1.isOk = false) ∧
    ∃ (s : Course) (l : Layout), Reached (fun _ _ => True) s ∧ (l, [0x61, 0x62, 0, 0]) ∈ s.packets ∧
      l.check [0x61, 0x62, 0, 0] ≠ .ok () := by
  constructor
  · refine ⟨viewed.overwritten.act (.toOwned 0), ?_, ?_, ?_, ?_⟩
    · refine .act (reached_overwritten (reached_viewed trivial) ?_ ?_) trivial trivial <;> cbv
    · have hpackets : (viewed.overwritten.act (.toOwned 0)).packets = [(kindLayout, [5])] := by
        cbv
      rw [hpackets]
      exact List.mem_singleton_self _
    · intro h
      have hfails : (kindLayout.check [5]).isOk = false := by cbv
      rw [h] at hfails
      cases hfails
    · cbv
  · refine ⟨act ⟨Session.markWorkspace, [], []⟩ (.pack (.record 0) (some Catalog.marksType)),
      .array (.unit ⟨"Mark", [], false, []⟩ (.bytes [0x61, 0x62])) 2, ?_, ?_, ?_⟩
    · refine .act (.start .empty rfl) (fun l hl => ?_) trivial
      have hlayout : (Session.layoutFor
          (Session.markWorkspace.store.valueOf (.record 0)) (some Catalog.marksType)
            Session.markWorkspace).1 =
          .ok (.array (.unit ⟨"Mark", [], false, []⟩ (.bytes [0x61, 0x62])) 2) := by cbv
      cases hlayout.symm.trans hl
      exact ⟨trivial, by decide⟩
    · have hpackets : (act ⟨Session.markWorkspace, [], []⟩
          (.pack (.record 0) (some Catalog.marksType))).packets =
            [(.array (.unit ⟨"Mark", [], false, []⟩ (.bytes [0x61, 0x62])) 2,
              [0x61, 0x62, 0, 0])] := by cbv
      rw [hpackets]
      exact List.mem_singleton_self _
    · intro h
      have hfails : ((Layout.array (.unit ⟨"Mark", [], false, []⟩ (.bytes [0x61, 0x62])) 2).check
          [0x61, 0x62, 0, 0]).isOk = false := by cbv
      rw [h] at hfails
      cases hfails

end Course

end FixedLayout
