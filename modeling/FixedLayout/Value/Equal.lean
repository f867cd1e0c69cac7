import FixedLayout.Value.Basic

/-!
# Equality and hashing of values

* `Value.same`: equality. Numbers are equal by value, whether they are integers, booleans, floats or
  integral members; byte strings by content; lists with lists and tuples with tuples, item by item;
  instances with instances of the same class, field by field;
* `Value.dictEntries`: entries with distinct keys;
* `HashFault`, `Value.hashFault?`: why a value cannot be looked up in a table.
-/

namespace FixedLayout

namespace Value

/-- The number that a value is compared by. -/
def magnitude? : Value → Option Binary64.Magnitude
  | .bool b => some (.ratio (if b then 1 else 0) 1)
  | .int n => some (.ratio n 1)
  | .float x => x.magnitude?
  | .member _ _ true (.int n) => some (.ratio n 1)
  | _ => none

/-- Whether a value is compared as a number. -/
def isNumber : Value → Bool
  | .bool _ | .int _ | .float _ => true
  | .member _ _ integral _ => integral
  | _ => false

/-- The bytes by which a view or packet is compared, itself or with a bytes-like value. -/
def rawBytes? : Value → Option Bytes
  | .view _ content => content
  | .packet _ content => some content
  | v => v.flatBytes?

/-- Whether a value is a view or a packet. -/
def isHandle : Value → Bool
  | .view _ _ | .packet _ _ => true
  | _ => false

/-- Whether two windows show the same items. A character is no number, so that windows of characters
equal only each other. -/
def sameWindow (a b : Memory) : Bool :=
  decide (a.rows = b.rows) &&
    if a.format = b.format then decide (a.bytes = b.bytes)
    else decide ((a.items.map integer?) = (b.items.map integer?))

/-- A bytes-like value as a window. -/
def window? : Value → Option Memory
  | .memory window => some window
  | v => v.flatBytes?.map fun content => ⟨content, .byte, none⟩

mutual

/-- Whether two values are equal. -/
def same : Value → Value → Bool
  | .null, .null => true
  | .text s, .text t => s == t
  | .list xs, .list ys => sameEach xs ys
  | .tuple xs, .tuple ys => sameEach xs ys
  | .dict xs, .dict ys => xs.length == ys.length && sameEntries xs ys
  | .record c xs, .record d ys => c.name == d.name && xs.length == ys.length && sameFields xs ys
  | .member e n false _, .member f m false _ => e == f && n == m
  | .bytearray x, .memory y => x == y.bytes
  | a, b =>
    if a.isNumber && b.isNumber then
      match a.magnitude?, b.magnitude? with
      | some x, some y => x.eq y
      | _, _ => false
    else if a.isHandle || b.isHandle then
      match a.rawBytes?, b.rawBytes? with
      | some x, some y => x == y
      | _, _ => false
    else
      match a.window?, b.window? with
      | some x, some y => sameWindow x y
      | _, _ => false

/-- Whether two lists of values are equal item by item. -/
def sameEach : List Value → List Value → Bool
  | [], [] => true
  | x :: xs, y :: ys => same x y && sameEach xs ys
  | _, _ => false

/-- Whether every entry of a dictionary has an equal one in another. -/
def sameEntries : List (Value × Value) → List (Value × Value) → Bool
  | [], _ => true
  | (k, v) :: rest, ys => ys.any (fun y => same k y.1 && same v y.2) && sameEntries rest ys

/-- Whether every field of an instance has an equal one in another. -/
def sameFields : List (String × Value) → List (String × Value) → Bool
  | [], _ => true
  | (k, v) :: rest, ys => ys.any (fun y => k == y.1 && same v y.2) && sameFields rest ys

end

/-- Values that are the same integer are equal. -/
theorem same_of_integer? {u v : Value} {n : Int} (hu : u.integer? = some n)
    (hv : v.integer? = some n) : u.same v = true := by
  unfold integer? at hu hv
  split at hu <;> cases hu <;> split at hv <;> cases hv <;>
    simp [same, isNumber, magnitude?]

/-- The entries of a dictionary, given what their keys look like: an entry whose key has been met
before gives its value to the earlier one. -/
def dictEntries {κ α : Type} (key : κ → Value) (entries : List (κ × α)) : List (κ × α) :=
  entries.foldl (fun made e =>
    if made.any fun m => (key m.1).same (key e.1) then
      made.map fun m => if (key m.1).same (key e.1) then (m.1, e.2) else m
    else made ++ [e]) []

end Value

/-- Why a value cannot be looked up in a table. -/
inductive HashFault
  | unhashable
  | writable
  | released (typeName : String)
  deriving DecidableEq, Repr

namespace Value

mutual

/-- Why a value cannot be looked up in a table, if it cannot. -/
def hashFault? : Value → Option HashFault
  | .list _ | .dict _ | .bytearray _ | .record _ _ => some .unhashable
  | .memory _ => some .writable
  | .view layout none => some (.released layout.typeName)
  | .tuple items => hashFaultEach? items
  | _ => none

/-- The first reason among several values. -/
def hashFaultEach? : List Value → Option HashFault
  | [] => none
  | v :: rest => (hashFault? v).or (hashFaultEach? rest)

end

end Value

end FixedLayout
