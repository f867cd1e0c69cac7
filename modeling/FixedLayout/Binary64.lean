/-!
# Binary64 numbers

Double-precision numbers as exact values: a sign and `mantissa * 2 ^ exponent`, the infinities and
a not-a-number. They occur only as values that have no packed form, so all that is needed is to read
them, to write them and to compare them.

* `Binary64.ofRatio`: the number nearest to a ratio, ties to the even mantissa;
* `Binary64.parse?`, `Binary64.render`: decimal text in and out. The text has the fewest digits that
  read back, is positional from `10 ^ -4` up to `10 ^ 16`, and always shows a point or an exponent;
* `Binary64.integer?`: the integer that the number is, if it is one;
* `Binary64.magnitude?`, `Binary64.Magnitude.lt`, `Binary64.Magnitude.eq`: comparisons with integers
  and with each other.
-/

namespace FixedLayout

/-- A binary64 number. A finite one has a mantissa below `2 ^ 53`, at least `2 ^ 52` unless the
exponent is the least one, so equal numbers have equal parts (zero apart, which has a sign). -/
inductive Binary64
  | finite (negative : Bool) (mantissa : Nat) (exponent : Int)
  | infinite (negative : Bool)
  | nan
  deriving DecidableEq, Repr, Inhabited

namespace Binary64

/-- The quotient rounded to the nearest integer, ties to even. -/
def roundDiv (a b : Nat) : Nat :=
  let q := a / b
  let twice := 2 * (a % b)
  if twice < b ∨ (twice = b ∧ q % 2 = 0) then q else q + 1

/-- `a * 2 ^ e / b`, as a ratio of two natural numbers. -/
def scale (a b : Nat) (e : Int) : Nat × Nat :=
  if e < 0 then (a, b <<< (-e).toNat) else (a <<< e.toNat, b)

/-- The exponent of the mantissa's last bit for the ratio `a / b`. -/
def lastBit (a b : Nat) : Int :=
  let guess : Int := (a.log2 : Int) - (b.log2 : Int)
  let below := let (x, y) := scale a b (-guess); decide (x < y)
  max ((if below then guess - 1 else guess) - 52) (-1074)

/-- The binary64 number nearest to `a / b`. -/
def ofRatio (negative : Bool) (a b : Nat) : Binary64 :=
  if a = 0 then .finite negative 0 (-1074)
  else
    let e := lastBit a b
    let (x, y) := scale a b (-e)
    let m := roundDiv x y
    let (m, e) := if m = 1 <<< 53 then (1 <<< 52, e + 1) else (m, e)
    if e > 971 then .infinite negative else .finite negative m e

/-- The number nearest to `digits * 10 ^ e`. -/
def ofDecimal (negative : Bool) (digits : Nat) (e : Int) : Binary64 :=
  if e < 0 then ofRatio negative digits (Nat.pow 10 (-e).toNat)
  else ofRatio negative (digits * Nat.pow 10 e.toNat) 1

/-- The number read from decimal digits. -/
def natOfDigits (cs : List Char) : Nat := cs.foldl (fun n c => n * 10 + (c.toNat - 48)) 0

/-- The integer written with an optional sign. -/
def intOfText? (cs : List Char) : Option Int :=
  match cs with
  | '-' :: ds => if ds ≠ [] ∧ ds.all Char.isDigit then some (-(natOfDigits ds : Int)) else none
  | '+' :: ds => if ds ≠ [] ∧ ds.all Char.isDigit then some (natOfDigits ds) else none
  | ds => if ds ≠ [] ∧ ds.all Char.isDigit then some (natOfDigits ds) else none

/-- A number without its sign: digits, perhaps with a point, perhaps with an exponent. -/
def parseMagnitude? (negative : Bool) (cs : List Char) : Option Binary64 :=
  if cs = "inf".toList then some (.infinite negative)
  else if cs = "nan".toList then some .nan
  else
    let isMark := fun c => c == 'e' || c == 'E'
    let body := cs.takeWhile fun c => !isMark c
    let exponent := cs.dropWhile fun c => !isMark c
    let whole := body.takeWhile (· != '.')
    let fraction := (body.dropWhile (· != '.')).drop 1
    let digits := whole ++ fraction
    if digits ≠ [] ∧ digits.all Char.isDigit then
      match exponent with
      | [] => some (ofDecimal negative (natOfDigits digits) (-(fraction.length : Int)))
      | _ :: e =>
        (intOfText? e).map fun e => ofDecimal negative (natOfDigits digits) (e - fraction.length)
    else none

/-- The number that a decimal text denotes. -/
def parse? (s : String) : Option Binary64 :=
  match s.toList with
  | '-' :: cs => parseMagnitude? true cs
  | '+' :: cs => parseMagnitude? false cs
  | cs => parseMagnitude? false cs

/-- The position of the decimal point of `a / b`, counted from its first significant digit: the `p`
with `10 ^ (p - 1) ≤ a / b < 10 ^ p`, found from a first guess at most one too low. -/
def pointOf (a b : Nat) : Int :=
  let guess : Int := ((a.log2 : Int) - (b.log2 : Int) - 1) * 30103 / 100000
  let atLeast := fun (p : Int) =>
    if p < 0 then decide (b ≤ a * Nat.pow 10 (-p).toNat)
    else decide (b * Nat.pow 10 p.toNat ≤ a)
  if atLeast (guess + 1) then guess + 2 else if atLeast guess then guess + 1 else guess

/-- The two decimals of `k` digits around `a / b`, as digits and exponent, the nearer one first (the
even one at a tie). -/
def candidates (a b : Nat) (point : Int) (k : Nat) : List (Nat × Int) :=
  let e : Int := point - k
  let (x, y) := if e < 0 then (a * Nat.pow 10 (-e).toNat, b) else (a, b * Nat.pow 10 e.toNat)
  let low := x / y
  let near := roundDiv x y
  [(near, e), (if near = low then low + 1 else low, e)]

/-- The first decimal, by number of digits and then by nearness, that reads back. -/
def shortestFrom (x : Binary64) (negative : Bool) (a b : Nat) (point : Int) :
    Nat → Nat → Nat × Int
  | k, 0 => ((candidates a b point k).headD (0, 0))
  | k, fuel + 1 =>
    match (candidates a b point k).find? fun c => decide (ofDecimal negative c.1 c.2 = x) with
    | some c => c
    | none => shortestFrom x negative a b point (k + 1) fuel

/-- The digits of a decimal without trailing zeros, and the exponent of the last one. -/
def trimZeros : Nat → Nat → Int → Nat × Int
  | 0, n, e => (n, e)
  | fuel + 1, n, e => if n ≠ 0 ∧ n % 10 = 0 then trimZeros fuel (n / 10) (e + 1) else (n, e)

/-- The fewest digits that read back as a positive finite number, and the exponent of the last. -/
def shortest (negative : Bool) (m : Nat) (e : Int) : Nat × Int :=
  let (a, b) := scale m 1 e
  let (n, e10) := shortestFrom (.finite negative m e) negative a b (pointOf a b) 1 17
  trimZeros 20 n e10

/-- Digits with a point after the first `point` of them, padded with zeros on either side. -/
def positional (digits : List Char) (point : Int) : List Char :=
  if point ≤ 0 then '0' :: '.' :: (List.replicate (-point).toNat '0' ++ digits)
  else if digits.length ≤ point.toNat then
    digits ++ List.replicate (point.toNat - digits.length) '0' ++ ['.', '0']
  else digits.take point.toNat ++ '.' :: digits.drop point.toNat

/-- Digits with a point after the first one and an exponent of at least two digits. -/
def scientific (digits : List Char) (point : Int) : List Char :=
  let e := point - 1
  let size := (toString e.natAbs).toList
  digits.take 1 ++ (if digits.length ≤ 1 then [] else '.' :: digits.drop 1) ++
    'e' :: (if e < 0 then '-' else '+') :: (if size.length < 2 then '0' :: size else size)

/-- The text of a number. -/
def render : Binary64 → String
  | .nan => "nan"
  | .infinite negative => if negative then "-inf" else "inf"
  | .finite negative m e =>
    let sign := if negative then ['-'] else []
    if m = 0 then String.ofList (sign ++ ['0', '.', '0'])
    else
      let (n, e10) := shortest negative m e
      let digits := (toString n).toList
      let point := (digits.length : Int) + e10
      let body :=
        if -4 < point ∧ point ≤ 16 then positional digits point else scientific digits point
      String.ofList (sign ++ body)

/-- The integer that the number is, if it is one. -/
def integer? : Binary64 → Option Int
  | .finite negative m e =>
    let (a, b) := scale m 1 e
    if a % b = 0 then some (if negative then -((a / b : Nat) : Int) else ((a / b : Nat) : Int))
    else none
  | _ => none

/-- The signed numerator and the denominator of a finite number. -/
def ratio? : Binary64 → Option (Int × Nat)
  | .finite negative m e =>
    let (a, b) := scale m 1 e
    some (if negative then -(a : Int) else a, b)
  | _ => none

/-- The integer ratio, or the infinity, that a number is compared by. -/
inductive Magnitude
  | low
  | ratio (num : Int) (den : Nat)
  | high

/-- What a number other than a not-a-number is compared by. -/
def magnitude? : Binary64 → Option Magnitude
  | .nan => none
  | .infinite negative => some (if negative then .low else .high)
  | x => (ratio? x).map fun (a, b) => .ratio a b

/-- Whether one magnitude lies below another. -/
def Magnitude.lt : Magnitude → Magnitude → Bool
  | .low, .low => false
  | .low, _ => true
  | .ratio _ _, .high => true
  | .ratio a b, .ratio c d => decide (a * d < c * b)
  | _, _ => false

/-- Whether two magnitudes are equal. -/
def Magnitude.eq (x y : Magnitude) : Bool := !x.lt y && !y.lt x

@[simp] theorem Magnitude.eq_self (x : Magnitude) : x.eq x = true := by
  have hlt : x.lt x = false := by
    cases x <;> simp only [lt, Int.lt_irrefl, decide_false]
  rw [eq, hlt]
  rfl

end Binary64

end FixedLayout
