import FixedLayout.Value.Equal

/-!
# Order of values

Numbers are ordered by value, texts by their characters, byte strings, views and packets by their
bytes, lists and tuples by the first items that differ. No other values are ordered.

* `compareBytes`: byte strings in lexicographic order;
* `OrderFault`: why two values have no order;
* `Value.compare`: the order of two values; `none` for numbers one of which is not a number;
* `Comparison`, `Value.holds`: the six comparisons;
* `Value.sort`: values in ascending order, equal ones in the order in which they came;
* `Value.distinct`: the number of values that differ.
-/

namespace FixedLayout

/-- The lexicographic order of two lists, by an order of their items. -/
def compareLists {α : Type} (cmp : α → α → Ordering) : List α → List α → Ordering
  | [], [] => .eq
  | [], _ :: _ => .lt
  | _ :: _, [] => .gt
  | x :: xs, y :: ys => (cmp x y).then (compareLists cmp xs ys)

/-- The lexicographic order of two byte strings. -/
def compareBytes (a b : Bytes) : Ordering := compareLists (fun x y => compare x.toNat y.toNat) a b

/-- Two lists are level exactly if they are the same, provided that this is so for their items. -/
theorem compareLists_eq_iff {α : Type} {cmp : α → α → Ordering}
    (h : ∀ x y, cmp x y = .eq ↔ x = y) :
    ∀ xs ys : List α, compareLists cmp xs ys = .eq ↔ xs = ys
  | [], [] => by simp [compareLists]
  | [], _ :: _ => by simp [compareLists]
  | _ :: _, [] => by simp [compareLists]
  | x :: xs, y :: ys => by
    simp [compareLists, Ordering.then_eq_eq, h, compareLists_eq_iff h xs ys]

/-- Why two values have no order. -/
inductive OrderFault
  | unordered
  | released (typeName : String)
  deriving DecidableEq, Repr

/-- The order of two numbers, if both are numbers indeed. -/
def Binary64.Magnitude.compare (x y : Binary64.Magnitude) : Ordering :=
  if x.lt y then .lt else if y.lt x then .gt else .eq

namespace Value

/-- The name of a released view's type. -/
def releasedType? : Value → Option String
  | .view layout none => some layout.typeName
  | _ => none

/-- The bytes by which two values are compared if one of them is a view or packet; `none` if they
are not compared by bytes. The view or packet asks for the other value's bytes first. -/
def handleBytes (a b : Value) : Option (Except OrderFault (Bytes × Bytes)) :=
  if a.isHandle || b.isHandle then
    let first := if a.isHandle then b else a
    let second := if a.isHandle then a else b
    match first.releasedType?, second.releasedType? with
    | some t, _ => some (.error (.released t))
    | none, late =>
      match a.rawBytes?, b.rawBytes?, late with
      | some x, some y, _ => some (.ok (x, y))
      | none, some _, some t => some (.error (.released t))
      | some _, none, some t => some (.error (.released t))
      | _, _, _ => none
  else none

mutual

/-- The order of two values. -/
def compare (a b : Value) : Except OrderFault (Option Ordering) :=
  match a.handleBytes b with
  | some (.ok (x, y)) => .ok (some (compareBytes x y))
  | some (.error fault) => .error fault
  | none =>
    match a, b with
    | .text s, .text t =>
      .ok (some (compareLists (fun x y => Ord.compare x.toNat y.toNat) s.toList t.toList))
    | .list xs, .list ys => compareEach xs ys
    | .tuple xs, .tuple ys => compareEach xs ys
    | .bytes x, .bytes y => .ok (some (compareBytes x y))
    | .bytearray x, y =>
      match y.flatBytes? with
      | some y => .ok (some (compareBytes x y))
      | none => .error .unordered
    | x, .bytearray y =>
      match x.flatBytes? with
      | some x => .ok (some (compareBytes x y))
      | none => .error .unordered
    | a, b =>
      if a.isNumber && b.isNumber then
        match a.magnitude?, b.magnitude? with
        | some x, some y => .ok (some (x.compare y))
        | _, _ => .ok none
      else .error .unordered

/-- The order of two lists of values: that of the first items that differ. -/
def compareEach : List Value → List Value → Except OrderFault (Option Ordering)
  | [], [] => .ok (some .eq)
  | [], _ :: _ => .ok (some .lt)
  | _ :: _, [] => .ok (some .gt)
  | x :: xs, y :: ys => if x.same y then compareEach xs ys else compare x y

end

end Value

/-- The comparisons of two values. -/
inductive Comparison
  | eq
  | ne
  | lt
  | le
  | gt
  | ge
  deriving DecidableEq, Repr

/-- Whether a comparison other than equality holds of values in a given order. -/
def Comparison.ofOrdering : Comparison → Ordering → Bool
  | .eq, o => o == .eq
  | .ne, o => o != .eq
  | .lt, o => o == .lt
  | .le, o => o != .gt
  | .gt, o => o == .gt
  | .ge, o => o != .lt

namespace Value

/-- Whether two values are equal. Values of kinds that have no order may be equal too. -/
def equals (a b : Value) : Except OrderFault Bool :=
  match a.handleBytes b with
  | some (.ok (x, y)) => .ok (x == y)
  | some (.error fault) => .error fault
  | none => .ok (a.same b)

/-- Whether a comparison of two values holds. -/
def holds (c : Comparison) (a b : Value) : Except OrderFault Bool :=
  match c with
  | .eq => a.equals b
  | .ne => (a.equals b).map (!·)
  | c =>
    match a.compare b with
    | .error fault => .error fault
    | .ok none => .ok false
    | .ok (some o) => .ok (c.ofOrdering o)

/-- Puts an item behind all those that are not greater. The list is in descending order, so that the
last item of an ascending one is met first. -/
def insertDescending {α : Type} (less : α → α → Except OrderFault Bool) (x : α) :
    List α → Except OrderFault (List α)
  | [] => .ok [x]
  | y :: ys => do
    if ← less x y then
      let rest ← insertDescending less x ys
      return y :: rest
    else return x :: y :: ys

/-- Items in descending order after further ones have been put among them. -/
def sortDescending {α : Type} (less : α → α → Except OrderFault Bool) :
    List α → List α → Except OrderFault (List α)
  | sorted, [] => .ok sorted
  | sorted, x :: rest => do
    let sorted ← insertDescending less x sorted
    sortDescending less sorted rest

/-- Items in ascending order of their values, equal ones in the order in which they came. -/
def sort {α : Type} (value : α → Value) (items : List α) : Except OrderFault (List α) :=
  (sortDescending (fun x y => holds .lt (value x) (value y)) [] items).map List.reverse

/-- The values that are the first of those equal to them. -/
def firsts (vs : List Value) : List Value :=
  vs.foldl (fun seen v => if seen.any (·.same v) then seen else seen ++ [v]) []

/-- The number of values that differ, if all of them can be looked up in a table. -/
def distinct (vs : List Value) : Except HashFault Nat :=
  match hashFaultEach? vs with
  | some fault => .error fault
  | none => .ok (firsts vs).length

end Value

end FixedLayout
