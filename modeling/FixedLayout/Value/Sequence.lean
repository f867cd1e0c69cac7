import FixedLayout.Value.Basic

/-!
# Values as sequences

Many values have a length and can be gone through item by item, not only lists and tuples.

* `Value.extent`: the number of items, if the value has a length at all;
* `Value.items`: the items. A dictionary goes through its keys, a positional instance through pairs
  of a name and a value, a view through the views of its entries.
-/

namespace FixedLayout

/-- Why a value that may have a length cannot be gone through. -/
inductive SequenceFault
  | noEntries (typeName : String)
  | negativeCount
  | notIterable
  | manyDimensions
  | released (typeName : String)
  deriving DecidableEq, Repr

/-- The length of a value. -/
inductive Extent
  | unsized
  | count (n : Nat)
  | fault (fault : SequenceFault)
  deriving DecidableEq, Repr

/-- The length of a view: the number of entries of its layout. -/
def Layout.extent (l : Layout) : Extent :=
  match l.entryCount? with
  | none => .fault (.noEntries l.typeName)
  | some n => if n < 0 then .fault .negativeCount else .count n.toNat

namespace Value

/-- The length of a value. -/
def extent : Value → Extent
  | .text s => .count s.length
  | .list items => .count items.length
  | .tuple items => .count items.length
  | .dict items => .count items.length
  | .bytes content => .count content.length
  | .bytearray content => .count content.length
  | .memory window => .count window.length
  | .record cls _ => if cls.positional then .count cls.fieldNames.length else .unsized
  | .view layout _ => layout.extent
  | .packet _ content => .count content.length
  | _ => .unsized

/-- The view of one entry of a view. -/
def entryView (layout : Layout) (content : Bytes) (index : Nat) : Option Value :=
  match layout.entry index with
  | .ok slot => some (.view slot.layout (some (Bytes.slice content slot.start slot.stop)))
  | .error _ => none

/-- The items of a value, in the order in which it is gone through. -/
def items : Value → Except SequenceFault (List Value)
  | .text s => .ok (s.toList.map fun c => .text (String.ofList [c]))
  | .list items => .ok items
  | .tuple items => .ok items
  | .dict items => .ok (items.map (·.1))
  | .bytes content => .ok (content.map fun b => .int b.toNat)
  | .bytearray content => .ok (content.map fun b => .int b.toNat)
  | .memory window => if window.rows.isSome then .error .manyDimensions else .ok window.items
  | .record _ fields => .ok (fields.map fun f => .tuple [.text f.1, f.2])
  | .view layout content =>
    match layout.extent with
    | .unsized => .error .notIterable
    | .fault fault => .error fault
    | .count 0 => .ok []
    | .count n =>
      match content with
      | none => .error (.released layout.typeName)
      | some content => .ok ((List.range n).filterMap (entryView layout content))
  | _ => .error .notIterable

end Value

end FixedLayout
