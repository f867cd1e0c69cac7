import FixedLayout.Value.Order

/-!
# Operators between handles and other values

A view or packet says by itself only whether it equals another value and whether it is less than
it; what it says of the other four comparisons follows from these two. An operator asks its left
operand. If that one declines, it asks the right operand for the mirrored comparison; if both
decline, the values are not equal and have no order.

* `Answer`: what an operand says, unless it declines;
* `Value.lentBytes`, `Value.bothBytes`: the bytes that a value gives for a comparison, and those of
  both operands;
* `Value.answer`: what an operand says of each comparison;
* `Value.operator`: the outcome of a comparison one of whose operands is a view or packet;
* `Value.hash?`: the hash by which a view, a packet or a byte string is looked up in a table;
* `Value.firstsHashed`: the values that a table keeps.
-/

namespace FixedLayout

/-- What an operand says of a comparison; `none` if it declines. -/
abbrev Answer := Except OrderFault (Option Bool)

/-- The comparison of two values the other way round. -/
def Comparison.mirror : Comparison → Comparison
  | .eq => .eq
  | .ne => .ne
  | .lt => .gt
  | .le => .ge
  | .gt => .lt
  | .ge => .le

/-- The outcome of a comparison of which both operands decline to say anything. -/
def Comparison.declined : Comparison → Except OrderFault Bool
  | .eq => .ok false
  | .ne => .ok true
  | _ => .error .unordered

/-- What the left operand says, or else the right one. -/
def Answer.orElse (left right : Answer) (declined : Except OrderFault Bool) :
    Except OrderFault Bool := do
  match ← left with
  | some b => return b
  | none =>
    match ← right with
    | some b => return b
    | none => declined

namespace Value

/-- The bytes that a value gives for a comparison, if it has any; a released view fails. -/
def lentBytes (v : Value) : Except OrderFault (Option Bytes) :=
  match v.releasedType? with
  | some typeName => .error (.released typeName)
  | none => .ok v.rawBytes?

/-- The bytes of a view or packet and those of the other operand, which it asks for first; `none` if
the other operand has none. Values of other kinds decline whatever the other operand is. -/
def bothBytes (v other : Value) : Except OrderFault (Option (Bytes × Bytes)) :=
  if v.isHandle then do
    match ← other.lentBytes with
    | none => return none
    | some theirs => return (← v.lentBytes).map (·, theirs)
  else .ok none

/-- What an operand says by a test of its bytes and those of the other one. -/
def answerWith (v : Value) (test : Bytes → Bytes → Bool) (other : Value) : Answer :=
  (v.bothBytes other).map (·.map fun (own, theirs) => test own theirs)

/-- Whether an operand is equal to the other one. -/
def answerEq (v other : Value) : Answer := v.answerWith (fun own theirs => own == theirs) other

/-- Whether an operand differs from the other one. -/
def answerNe (v other : Value) : Answer := (v.answerEq other).map (·.map (!·))

/-- Whether an operand is less than the other one. -/
def answerLt (v other : Value) : Answer :=
  v.answerWith (fun own theirs => compareBytes own theirs == .lt) other

/-- Whether two operands are equal. -/
def operatorEq (a b : Value) : Except OrderFault Bool :=
  Answer.orElse (a.answerEq b) (b.answerEq a) (.ok false)

/-- Whether two operands differ. -/
def operatorNe (a b : Value) : Except OrderFault Bool :=
  Answer.orElse (a.answerNe b) (b.answerNe a) (.ok true)

/-- What an operand says of a comparison. Apart from equality and less, it puts its answer together:
less or equal, not less but different, not less. -/
def answer (v other : Value) : Comparison → Answer
  | .eq => v.answerEq other
  | .ne => v.answerNe other
  | .lt => v.answerLt other
  | .le => do
    match ← v.answerLt other with
    | none => return none
    | some true => return some true
    | some false => return some (← v.operatorEq other)
  | .gt => do
    match ← v.answerLt other with
    | none => return none
    | some true => return some false
    | some false => return some (← v.operatorNe other)
  | .ge => (v.answerLt other).map (·.map (!·))

/-- The outcome of a comparison of two values, one of which is a view or packet. -/
def operator (c : Comparison) (a b : Value) : Except OrderFault Bool :=
  Answer.orElse (a.answer b c) (b.answer a c.mirror) c.declined

/-- The hash of a value that can be looked up and has bytes, given that of byte strings. -/
def hash? {η : Type} (hashBytes : Bytes → η) (v : Value) : Option η :=
  match v.hashFault? with
  | some _ => none
  | none => v.rawBytes?.map hashBytes

/-- The values that a table keeps: one that has the hash of a value that has been kept, and equals
it, is taken for that one. -/
def firstsHashed {η : Type} [BEq η] (hashBytes : Bytes → η) (vs : List Value) : List Value :=
  vs.foldl (fun seen v =>
    if seen.any (fun u => u.hash? hashBytes == v.hash? hashBytes && u.same v) then seen
    else seen ++ [v]) []

end Value

end FixedLayout
