import FixedLayout.Proofs.Canonical

/-!
# Values that an array cannot go through

An array takes any value that has a length, texts and byte strings apart. Some of these cannot be
gone through all the same, or fail when they are asked for their length, and encoding then ends
without an error of its own.

* `Value.Unwalkable`: the values of which this is so, and why;
* `Layout.Stumbles`, `Fields.Stumbles`: encoding comes to an array that is given such a value;
* `Layout.outcome_eq_error_iff`: encoding fails with anything but an error of its own exactly if it
  stumbles;
* `Value.Plain`: values with no views, packets or rows of memory in them, on which nothing stumbles;
* `Catalog.encode_ends`: how encoding a value of any shape ends.
-/

namespace FixedLayout

/-- A failure of encoding other than a rejection. The nodes around it leave it as it is. -/
def EncodeFault.Bare (fault : EncodeFault) : Prop := ∀ e, fault ≠ .rejected e

theorem EncodeFault.bare_sequence (f : SequenceFault) : (EncodeFault.sequence f).Bare :=
  fun _ h => nomatch h

/-! ### Single arrays -/

/-- Why an array of `n` elements cannot go through a value that may have a length: it is a view
without positional entries or with a negative number of them, or it has the right length and is a
released view, a packet, or memory in rows. -/
inductive Value.Unwalkable (n : Int) : Value → SequenceFault → Prop
  | noEntries {l : Layout} {content : Option Bytes} : l.entryCount? = none →
    Unwalkable n (.view l content) (.noEntries l.typeName)
  | negativeCount {l : Layout} {content : Option Bytes} {k : Int} : l.entryCount? = some k → k < 0 →
    Unwalkable n (.view l content) .negativeCount
  | released {l : Layout} : l.entryCount? = some n → 0 < n →
    Unwalkable n (.view l none) (.released l.typeName)
  | notIterable {l : Layout} {content : Bytes} : (content.length : Int) = n →
    Unwalkable n (.packet l content) .notIterable
  | manyDimensions {window : Memory} {rows : Nat} : window.rows = some rows → (rows : Int) = n →
    Unwalkable n (.memory window) .manyDimensions

/-- Only a view can fail when it is asked for its length. -/
theorem Value.unwalkable_of_extent {n : Int} {v : Value} {fault : SequenceFault}
    (h : v.extent = .fault fault) : v.Unwalkable n fault := by
  cases v with
  | view l content =>
    simp only [Value.extent, Layout.extent] at h
    cases hcount : l.entryCount? with
    | none =>
      rw [hcount] at h
      cases h
      exact .noEntries hcount
    | some k =>
      rw [hcount] at h
      by_cases hk : k < 0
      · simp only [hk, if_true] at h
        cases h
        exact .negativeCount hcount hk
      · simp only [hk, if_false] at h
        cases h
  | record cls fields =>
    simp only [Value.extent] at h
    split at h <;> cases h
  | _ => cases h

/-- What has a length and cannot be gone through is a released view, a packet, or memory in rows. -/
theorem Value.unwalkable_of_items {v : Value} {fault : SequenceFault} {n : Nat}
    (hextent : v.extent = .count n) (h : v.items = .error fault) : v.Unwalkable n fault := by
  cases v with
  | view l content =>
    have hl : l.extent = .count n := hextent
    simp only [Value.items, hl] at h
    have hcount : l.entryCount? = some (n : Int) := by
      unfold Layout.extent at hl
      split at hl
      · cases hl
      · next k hk =>
        split at hl
        · cases hl
        · cases hl
          rw [hk]
          congr 1
          omega
    cases n with
    | zero => cases h
    | succ n =>
      cases content with
      | none =>
        cases h
        exact .released hcount (by omega)
      | some content => cases h
  | packet l content =>
    cases h
    exact .notIterable (congrArg Int.ofNat (Extent.count.inj hextent))
  | memory window =>
    simp only [Value.items] at h
    cases hrows : window.rows with
    | none =>
      rw [hrows] at h
      cases h
    | some rows =>
      rw [hrows] at h
      cases h
      simp only [Value.extent, Memory.length, hrows] at hextent
      exact .manyDimensions hrows (congrArg Int.ofNat (Extent.count.inj hextent))
  | record cls fields => cases h
  | text s => cases h
  | list items => cases h
  | tuple items => cases h
  | dict items => cases h
  | bytes content => cases h
  | bytearray content => cases h
  | _ => cases hextent

/-- An array does not reject a value that it cannot go through. -/
theorem Value.Unwalkable.arrayElements {n : Int} {v : Value} {fault : SequenceFault}
    (h : v.Unwalkable n fault) (typeName : String) :
    arrayElements typeName n v = .error (.sequence fault) := by
  cases h with
  | noEntries hcount => simp [FixedLayout.arrayElements, extent, Layout.extent, hcount]
  | negativeCount hcount hk => simp [FixedLayout.arrayElements, extent, Layout.extent, hcount, hk]
  | @released l hcount hn =>
    obtain ⟨k, rfl⟩ := Int.eq_succ_of_zero_lt hn
    have hextent : l.extent = .count (k + 1) := by
      unfold Layout.extent
      rw [hcount]
      exact if_neg (by omega)
    simp [FixedLayout.arrayElements, extent, items, hextent]
  | notIterable hlen => simp [FixedLayout.arrayElements, extent, items, hlen]
  | manyDimensions hrows hn =>
    simp [FixedLayout.arrayElements, extent, items, Memory.length, hrows, hn]

/-- An array fails with anything but a rejection exactly on a value that it cannot go through. -/
theorem arrayElements_eq_error_iff (typeName : String) {n : Int} {v : Value} {fault : EncodeFault}
    (hfault : fault.Bare) :
    arrayElements typeName n v = .error fault ↔ ∃ f, fault = .sequence f ∧ v.Unwalkable n f := by
  constructor
  · intro h
    unfold arrayElements at h
    split at h
    · exact absurd (Except.error.inj h).symm (hfault _)
    · exact absurd (Except.error.inj h).symm (hfault _)
    · exact absurd (Except.error.inj h).symm (hfault _)
    · split at h
      · exact absurd (Except.error.inj h).symm (hfault _)
      · next f hextent =>
        cases h
        exact ⟨f, rfl, Value.unwalkable_of_extent hextent⟩
      · next k hextent =>
        split at h
        · exact absurd (Except.error.inj h).symm (hfault _)
        · next hk =>
          obtain rfl := Decidable.not_not.1 hk
          split at h
          · cases h
          · next f hitems =>
            cases h
            exact ⟨f, rfl, Value.unwalkable_of_items hextent hitems⟩
  · rintro ⟨f, rfl, hv⟩
    exact hv.arrayElements typeName

/-! ### Layouts -/

mutual

/-- Encoding a value comes to an array that cannot go through what it is given. -/
def Layout.Stumbles : Layout → Value → SequenceFault → Prop
  | .composite form fields, v, fault =>
    ∃ values, form.split (Layout.composite form fields).typeName fields.names v = .ok values ∧
      fields.Stumbles values fault
  | .array element n, v, fault =>
    v.Unwalkable n fault ∨
      ∃ items before x after, arrayElements (Layout.array element n).typeName n v = .ok items ∧
        items.take n.toNat = before ++ x :: after ∧
        (∀ y ∈ before, ∃ data, element.pack y = .ok data) ∧ element.Stumbles x fault
  | _, _, _ => False

/-- Encoding values as fields comes to such an array in one of the fields, and packs the values of
the fields before. -/
def Fields.Stumbles : Fields → List Value → SequenceFault → Prop
  | .cons _ _ layout rest, v :: values, fault =>
    layout.Stumbles v fault ∨ ((∃ data, layout.pack v = .ok data) ∧ rest.Stumbles values fault)
  | _, _, _ => False

end

/-- A writer of regions of `n` bytes that fails only by rejecting the value. -/
def Writer.RejectsOnly (n : Int) (w : Writer) : Prop :=
  ∀ region : Bytes, (region.length : Int) = n → ∀ fault, (w region).1 = .error fault →
    ∃ e, fault = .rejected e

namespace Writer

theorem rejectsOnly_put {content : Bytes} {n : Int} (h : (content.length : Int) = n) :
    (put content).RejectsOnly n := by
  intro region hregion fault hfault
  rw [put_apply (Int.ofNat.inj (hregion.trans h.symm))] at hfault
  cases hfault

theorem rejectsOnly_reject (e : EncodeError) (n : Int) : (reject e).RejectsOnly n := by
  intro region hregion fault hfault
  cases hfault
  exact ⟨e, rfl⟩

end Writer

/-- A leaf fails only by rejecting the value. -/
theorem Layout.rejectsOnly_of_isLeaf {l : Layout} (hleaf : l.IsLeaf) (v : Value) :
    (l.encode v).RejectsOnly l.size := by
  cases l with
  | int r =>
    show (r.encode v).RejectsOnly r.width
    unfold IntRepr.encode
    split
    · exact Writer.rejectsOnly_reject _ _
    · split
      · exact Writer.rejectsOnly_put (by rw [r.length_toBytes])
      · exact Writer.rejectsOnly_reject _ _
  | bytes n =>
    show (encodeBytes _ v).RejectsOnly n
    unfold encodeBytes
    split
    · exact Writer.rejectsOnly_reject _ _
    · intro region hregion fault hfault
      simp only [Writer.ofFn] at hfault
      split at hfault
      · cases hfault
      · cases hfault
        exact ⟨_, rfl⟩
  | unit cls literal => exact Writer.rejectsOnly_put rfl
  | enumeration e =>
    show (e.encode v).RejectsOnly e.repr.width
    unfold Enumeration.encode
    simp only
    split
    · split
      · split
        · exact Writer.rejectsOnly_put (by rw [e.repr.length_toBytes])
        · exact Writer.rejectsOnly_reject _ _
      · exact Writer.rejectsOnly_reject _ _
    · exact Writer.rejectsOnly_reject _ _
  | composite form fields => exact hleaf.elim
  | array element n => exact hleaf.elim

/-- The trace of a leaf fails only by rejecting the value. -/
theorem Layout.not_bare_of_isLeaf {l : Layout} (hleaf : l.IsLeaf) (hl : l.LengthsNonneg)
    {v : Value} {fault : EncodeFault} (hfault : fault.Bare) :
    (l.trace v).outcome ≠ .error fault := by
  intro h
  have hzeros := Layout.length_zeros (l.size_nonneg hl)
  have hencode := Layout.encode_eq_trace hl v hzeros
  obtain ⟨e, he⟩ := Layout.rejectsOnly_of_isLeaf hleaf v _ hzeros fault (by rw [hencode]; exact h)
  exact hfault e he

/-- A failure that is no rejection comes from the child or from what follows it. -/
theorem Trace.bare_of_andThen {t tail : Trace} {fault : EncodeFault} (hfault : fault.Bare)
    (node : EncodeError → EncodeError) (frame : Frame) (offset : Int) :
    ((t.within node frame offset).andThen tail).outcome = .error fault ↔
      t.outcome = .error fault ∨ (t.outcome = .ok () ∧ tail.outcome = .error fault) := by
  cases hout : t.outcome with
  | ok u =>
    rw [outcome_andThen_of_ok (outcome_within_of_ok hout node frame offset)]
    simp
  | error f =>
    rw [outcome_andThen_of_error (outcome_within_of_error hout node frame offset)]
    cases f with
    | rejected e =>
      constructor
      · intro h
        cases h
        exact absurd rfl (hfault _)
      · rintro (h | ⟨h, -⟩)
        · cases h
          exact absurd rfl (hfault e)
        · cases h
    | sequence f => simp [EncodeFault.wrap]
    | misfit => simp [EncodeFault.wrap]

/-- The elements of an array fail with no rejection exactly if one of them does, and the ones before
it are written. -/
theorem bare_of_traceRun {trace : Value → Trace} {Q : Value → Prop} {fault : EncodeFault}
    (hfault : fault.Bare) (h : ∀ v, (trace v).outcome = .error fault ↔ Q v) (leaves : List Leaf)
    (typeName : String) (size : Int) (index n : Nat) (items : List Value) :
    (traceRun trace leaves typeName size index n items).outcome = .error fault ↔
      ∃ before x after, items.take n = before ++ x :: after ∧
        (∀ y ∈ before, (trace y).outcome = .ok ()) ∧ Q x := by
  induction n generalizing index items with
  | zero =>
    rw [List.take_zero]
    constructor
    · intro hout
      cases hout
    · rintro ⟨before, x, after, heq, -⟩
      exact absurd heq.symm (List.append_ne_nil_of_right_ne_nil _ (List.cons_ne_nil _ _))
  | succ n ih =>
    cases items with
    | nil =>
      rw [List.take_nil]
      constructor
      · intro hout
        cases hout
      · rintro ⟨before, x, after, heq, -⟩
        exact absurd heq.symm (List.append_ne_nil_of_right_ne_nil _ (List.cons_ne_nil _ _))
    | cons v items =>
      rw [traceRun, Trace.bare_of_andThen hfault, h, ih, List.take_succ_cons]
      constructor
      · rintro (hv | ⟨hv, before, x, after, heq, hbefore, hx⟩)
        · exact ⟨[], v, _, rfl, fun _ hy => absurd hy List.not_mem_nil, hv⟩
        · refine ⟨v :: before, x, after, by rw [heq]; rfl, ?_, hx⟩
          exact List.forall_mem_cons.2 ⟨hv, hbefore⟩
      · rintro ⟨before, x, after, heq, hbefore, hx⟩
        cases before with
        | nil =>
          cases heq
          exact Or.inl hx
        | cons y before =>
          obtain ⟨rfl, hrest⟩ := List.cons.inj heq
          obtain ⟨hv, hbefore⟩ := List.forall_mem_cons.1 hbefore
          exact Or.inr ⟨hv, before, x, after, hrest, hbefore, hx⟩

/-- A trace succeeds exactly if the value is packed. -/
theorem Layout.outcome_eq_ok_iff {l : Layout} (hl : l.LengthsNonneg) {v : Value} :
    (l.trace v).outcome = .ok () ↔ ∃ data, l.pack v = .ok data :=
  ⟨fun h => ⟨_, (Layout.pack_eq_ok_iff hl).2 ⟨h, rfl⟩⟩,
    fun ⟨_, h⟩ => ((Layout.pack_eq_ok_iff hl).1 h).1⟩

mutual

/-- Encoding fails with anything but a rejection exactly if it stumbles. -/
theorem Layout.outcome_eq_error_iff : ∀ l : Layout, l.LengthsNonneg →
    ∀ (v : Value) {fault : EncodeFault}, fault.Bare →
      ((l.trace v).outcome = .error fault ↔ ∃ f, fault = .sequence f ∧ l.Stumbles v f)
  | .int _, hl, _, _, hfault =>
    iff_of_false (Layout.not_bare_of_isLeaf (l := .int _) trivial hl hfault) fun ⟨_, _, h⟩ => h
  | .bytes _, hl, _, _, hfault =>
    iff_of_false (Layout.not_bare_of_isLeaf (l := .bytes _) trivial hl hfault) fun ⟨_, _, h⟩ => h
  | .unit _ _, hl, _, _, hfault =>
    iff_of_false (Layout.not_bare_of_isLeaf (l := .unit _ _) trivial hl hfault) fun ⟨_, _, h⟩ => h
  | .enumeration e, hl, _, _, hfault =>
    iff_of_false (Layout.not_bare_of_isLeaf (l := .enumeration e) trivial hl hfault)
      fun ⟨_, _, h⟩ => h
  | .composite form fields, hl, v, fault, hfault => by
    cases hsplit : form.split (Layout.composite form fields).typeName fields.names v with
    | error e =>
      rw [Layout.trace_composite_of_error hsplit]
      constructor
      · intro h
        cases h
        exact absurd rfl (hfault e)
      · rintro ⟨f, -, values, hvalues, -⟩
        rw [hsplit] at hvalues
        cases hvalues
    | ok values =>
      rw [Layout.trace_composite hsplit, fields.outcome_eq_error_iff hl _ _ 0 0 values hfault]
      constructor
      · rintro ⟨f, hf, hstumbles⟩
        exact ⟨f, hf, values, hsplit, hstumbles⟩
      · rintro ⟨f, hf, others, hothers, hstumbles⟩
        rw [hsplit] at hothers
        cases hothers
        exact ⟨f, hf, hstumbles⟩
  | .array element n, ⟨he, hn⟩, v, fault, hfault => by
    have hown := arrayElements_eq_error_iff (Layout.array element n).typeName (n := n) (v := v)
      hfault
    cases hitems : arrayElements (Layout.array element n).typeName n v with
    | error error =>
      rw [hitems, Except.error.injEq] at hown
      rw [Layout.trace_array_of_error hitems, Trace.fail, Except.error.injEq, hown]
      constructor
      · rintro ⟨f, hf, hv⟩
        exact ⟨f, hf, Or.inl hv⟩
      · rintro ⟨f, hf, hv | ⟨items, -, -, -, hok, -⟩⟩
        · exact ⟨f, hf, hv⟩
        · rw [hitems] at hok
          cases hok
    | ok items =>
      rw [Layout.trace_array hitems,
        bare_of_traceRun hfault fun x => element.outcome_eq_error_iff he x hfault]
      rw [hitems] at hown
      constructor
      · rintro ⟨before, x, after, htake, hbefore, f, hf, hx⟩
        refine ⟨f, hf, Or.inr ⟨items, before, x, after, hitems, htake, fun y hy => ?_, hx⟩⟩
        exact (Layout.outcome_eq_ok_iff he).1 (hbefore y hy)
      · rintro ⟨f, hf, hv | ⟨others, before, x, after, hothers, htake, hbefore, hx⟩⟩
        · cases hown.2 ⟨f, hf, hv⟩
        · rw [hitems] at hothers
          cases hothers
          refine ⟨before, x, after, htake, fun y hy => ?_, f, hf, hx⟩
          exact (Layout.outcome_eq_ok_iff he).2 (hbefore y hy)

theorem Fields.outcome_eq_error_iff : ∀ fs : Fields, fs.LengthsNonneg →
    ∀ (typeName : String) (frame : String → Nat → Frame) (index : Nat) (start : Int)
      (values : List Value) {fault : EncodeFault}, fault.Bare →
      ((fs.trace typeName frame index start values).outcome = .error fault ↔
        ∃ f, fault = .sequence f ∧ fs.Stumbles values f)
  | .nil, _, _, _, _, _, _, _, _ => iff_of_false nofun fun ⟨_, _, h⟩ => h
  | .cons _ _ _ _, _, _, _, _, _, [], _, _ => iff_of_false nofun fun ⟨_, _, h⟩ => h
  | .cons _ _ layout rest, ⟨hl, hr⟩, typeName, frame, index, start, v :: values, fault, hfault => by
    rw [Fields.trace, Trace.bare_of_andThen hfault, layout.outcome_eq_error_iff hl v hfault,
      rest.outcome_eq_error_iff hr _ _ _ _ values hfault, Layout.outcome_eq_ok_iff hl]
    constructor
    · rintro (⟨f, hf, hv⟩ | ⟨hv, f, hf, hrest⟩)
      · exact ⟨f, hf, Or.inl hv⟩
      · exact ⟨f, hf, Or.inr ⟨hv, hrest⟩⟩
    · rintro ⟨f, hf, hv | ⟨hv, hrest⟩⟩
      · exact Or.inl ⟨f, hf, hv⟩
      · exact Or.inr ⟨hv, f, hf, hrest⟩

end

/-! ### Values without handles -/

namespace Value

/-- Whether a value is no view, no packet and no memory in rows. -/
def IsPlain : Value → Prop
  | .view _ _ => False
  | .packet _ _ => False
  | .memory window => window.rows = none
  | _ => True

/-- Nothing inside a value is a view, a packet or memory in rows. -/
def Plain (v : Value) : Prop := ∀ u, v.Has u → u.IsPlain

/-- A plain value is one that is no handle and has only plain items. -/
theorem IsPlain.plain {v : Value} (h : v.IsPlain)
    (hitems : ∀ items, v.items = .ok items → ∀ x ∈ items, x.Plain) : v.Plain := by
  have hhas : ∀ u, v.Has u → u = v ∨ ∃ x : Value, x.Plain ∧ x.Has u := by
    intro u hu
    induction hu with
    | self => exact Or.inl rfl
    | item hw hok hx ih =>
      rcases ih with rfl | ⟨y, hy, hyw⟩
      · exact Or.inr ⟨_, hitems _ hok _ hx, .self⟩
      · exact Or.inr ⟨y, hy, hyw.item hok hx⟩
  intro u hu
  rcases hhas u hu with rfl | ⟨x, hx, hxu⟩
  · exact h
  · exact hx u hxu

theorem IsPlain.not_unwalkable {v : Value} (h : v.IsPlain) (n : Int) (fault : SequenceFault) :
    ¬ v.Unwalkable n fault := by
  intro hv
  cases hv with
  | manyDimensions hrows hn =>
    rw [show _ = none from h] at hrows
    cases hrows
  | _ => exact h

end Value

mutual

/-- Encoding stumbles only over a value inside the one that is encoded. -/
theorem Layout.Stumbles.exists_unwalkable : ∀ {l : Layout} {v : Value} {fault : SequenceFault},
    l.Stumbles v fault → ∃ n u, v.Has u ∧ u.Unwalkable n fault
  | .int _, _, _, h => h.elim
  | .bytes _, _, _, h => h.elim
  | .unit _ _, _, _, h => h.elim
  | .enumeration _, _, _, h => h.elim
  | .composite form fields, v, fault, h => by
    obtain ⟨values, hsplit, hfields⟩ := h
    obtain ⟨x, hx, n, u, hu, hunwalkable⟩ := hfields.exists_unwalkable
    exact ⟨n, u, ((Form.split_eq_ok hsplit).2 x hx).trans hu, hunwalkable⟩
  | .array element n, v, fault, h => by
    rcases h with hv | ⟨items, before, x, after, hitems, htake, -, hx⟩
    · exact ⟨n, v, .self, hv⟩
    · obtain ⟨m, u, hu, hunwalkable⟩ := hx.exists_unwalkable
      have hmem : x ∈ items := by
        refine List.mem_of_mem_take (i := n.toNat) ?_
        rw [htake]
        exact List.mem_append_right before List.mem_cons_self
      exact ⟨m, u, (Value.Has.self.item (arrayElements_eq_ok hitems).1 hmem).trans hu, hunwalkable⟩

theorem Fields.Stumbles.exists_unwalkable : ∀ {fs : Fields} {values : List Value}
    {fault : SequenceFault}, fs.Stumbles values fault →
      ∃ x ∈ values, ∃ n u, x.Has u ∧ u.Unwalkable n fault
  | .nil, _, _, h => h.elim
  | .cons _ _ _ _, [], _, h => h.elim
  | .cons _ _ layout rest, v :: values, fault, h => by
    rcases h with hv | ⟨-, hrest⟩
    · obtain ⟨n, u, hu⟩ := hv.exists_unwalkable
      exact ⟨v, List.mem_cons_self, n, u, hu⟩
    · obtain ⟨x, hx, hu⟩ := hrest.exists_unwalkable
      exact ⟨x, List.mem_cons_of_mem v hx, hu⟩

end

/-! ### Types -/

namespace Catalog

variable {c : Catalog} {t : TypeExpr} {l : Layout}

theorem toFault_ne_encode (f : SequenceFault) (e : EncodeError) : f.toFault ≠ .encode e := by
  intro h
  cases f <;> cases h

/-- Encoding that stumbles fails with the failure of going through the value that it was given. -/
theorem encode_of_stumbles (h : c.layoutOf t = .ok l) (hl : l.LengthsNonneg) {v : Value}
    {f : SequenceFault} (hf : l.Stumbles v f) : c.encode v (some t) = .error f.toFault := by
  have hout : (l.trace v).outcome = .error (.sequence f) :=
    (l.outcome_eq_error_iff hl v (EncodeFault.bare_sequence f)).2 ⟨f, rfl, hf⟩
  rw [encode_eq h, Layout.pack_eq_trace hl, hout]
  rfl

/-- Encoding that does not stumble gives bytes or an encoding error. -/
theorem encode_of_not_stumbles (h : c.layoutOf t = .ok l) (hl : l.LengthsNonneg) {v : Value}
    (hv : ∀ f, ¬ l.Stumbles v f) :
    (∃ data, c.encode v (some t) = .ok data) ∨ ∃ e, c.encode v (some t) = .error (.encode e) := by
  rw [encode_eq h, Layout.pack_eq_trace hl]
  cases hout : (l.trace v).outcome with
  | ok u => exact Or.inl ⟨_, rfl⟩
  | error fault =>
    by_cases hfault : fault.Bare
    · obtain ⟨f, -, hf⟩ := (l.outcome_eq_error_iff hl v hfault).1 hout
      exact absurd hf (hv f)
    · obtain ⟨e, he⟩ := not_forall.1 hfault
      obtain rfl := not_not.1 he
      exact Or.inr ⟨e, rfl⟩

/-- Encoding a value of any shape gives bytes or an encoding error, unless it comes to an array that
is given a view without positional entries or with a negative number of them, or a released view, a
packet or memory in rows of the right length: then, and only then, the failure is that of going
through this value. It never comes to that where no view, packet or memory in rows is inside the
value. -/
theorem encode_ends (h : c.layoutOf t = .ok l) (hl : l.LengthsNonneg) (v : Value) :
    (((∃ data, c.encode v (some t) = .ok data) ∨ ∃ e, c.encode v (some t) = .error (.encode e)) ↔
      ∀ f, ¬ l.Stumbles v f) ∧
    (∀ f, l.Stumbles v f → c.encode v (some t) = .error f.toFault ∧
      ∃ n u, v.Has u ∧ u.Unwalkable n f) ∧
    (v.Plain → ∀ f, ¬ l.Stumbles v f) := by
  refine ⟨⟨fun hends f hf => ?_, encode_of_not_stumbles h hl⟩, fun f hf => ?_, fun hv f hf => ?_⟩
  · have hfails := encode_of_stumbles h hl hf
    rcases hends with ⟨data, hok⟩ | ⟨e, herror⟩
    · rw [hok] at hfails
      cases hfails
    · rw [herror] at hfails
      exact toFault_ne_encode f e (Except.error.inj hfails).symm
  · exact ⟨encode_of_stumbles h hl hf, hf.exists_unwalkable⟩
  · obtain ⟨n, u, hu, hunwalkable⟩ := hf.exists_unwalkable
    exact (hv u hu).not_unwalkable n f hunwalkable

/-- A list of two bytes. -/
def pairType : TypeExpr := .fixedList (.fixedInt .u8) 2

theorem layoutOf_pairType : layoutOf [] pairType = .ok (.array (.int .u8) 2) := by cbv

/-- A plain list of numbers is encoded or rejected. -/
theorem plain_pair_is_encoded_or_rejected :
    Value.Plain (.list [.int 1, .int 300]) ∧
      ((∃ data, encode [] (.list [.int 1, .int 300]) (some pairType) = .ok data) ∨
        ∃ e, encode [] (.list [.int 1, .int 300]) (some pairType) = .error (.encode e)) := by
  have hint : ∀ n, Value.Plain (.int n) := fun n => Value.IsPlain.plain trivial nofun
  have hplain : Value.Plain (.list [.int 1, .int 300]) := by
    refine Value.IsPlain.plain trivial fun items hitems => ?_
    cases hitems
    exact List.forall_mem_cons.2 ⟨hint 1, List.forall_mem_singleton.2 (hint 300)⟩
  have hl : (Layout.array (.int .u8) 2).LengthsNonneg := ⟨trivial, by decide⟩
  have hends := encode_ends layoutOf_pairType hl (.list [.int 1, .int 300])
  exact ⟨hplain, hends.1.2 (hends.2.2 hplain)⟩

/-- Neither memory in rows, nor a packet, nor a view of an integer, nor a released view of a pair is
encoded or rejected as a list of two bytes. -/
theorem handles_are_not_rejected :
    encode [] (.memory ⟨[1, 2, 3, 4], .byte, some 2⟩) (some pairType) = .error .manyDimensions ∧
      encode [] (.packet (.int .u16) [1, 2]) (some pairType) = .error .unsuitable ∧
      encode [] (.view (.int .u16) (some [1, 2])) (some pairType) = .error (.noEntries "u16") ∧
      encode [] (.view (.array (.int .u8) 2) none) (some pairType) =
        .error (.released "u8[2]") := by
  refine ⟨?_, ?_, ?_, ?_⟩ <;> cbv

end Catalog

end FixedLayout
