import Typeahead.Double.Basic

/-!
Double precision numbers as texts. The digits are the fewest that read back to the same number, and
of those the nearest to it. They are written out while the leading digit stands at most four places
after the point and at most sixteen before it, and with an exponent beyond.
-/
namespace Typeahead.Double

/-- How `digits * 10 ^ exponent` compares with `n * 2 ^ e`. -/
def compareScaled (digits : Nat) (exponent : Int) (n : Nat) (e : Int) : Ordering :=
  let (up, down) := power 10 exponent
  let (up₂, down₂) := power 2 e
  compare (digits * up * down₂) (n * up₂ * down)

/-- The decimal lies among the numbers that become `m * 2 ^ e`. They reach half way to the two
neighbours, of which the lower is nearer where the exponent changes; the ends belong to even numbers. -/
def readsBack (m : Nat) (e : Int) (digits : Nat) (exponent : Int) : Bool :=
  let narrow := m = 0x10000000000000 && leastExponent < e
  let low := compareScaled digits exponent (if narrow then 4 * m - 1 else 4 * m - 2) (e - 2)
  let high := compareScaled digits exponent (4 * m + 2) (e - 2)
  let even := m % 2 = 0
  (low == .gt || even && low == .eq) && (high == .lt || even && high == .eq)

/-- The least `k` with `m * 2 ^ e < 10 ^ k`. -/
def decimalOrder (m : Nat) (e : Int) : Int :=
  let (up, down) := power 2 e
  let k : Int := ((Nat.toDigits 10 (m * up)).length : Int) - (Nat.toDigits 10 down).length
  if compareScaled 1 k m e == .gt then k else k + 1

/-- The multiple of `10 ^ exponent` next to `m * 2 ^ e` that reads back to it, given by its factor;
of two such the nearer, of two equally near the even one. -/
def onGrid (m : Nat) (e : Int) (exponent : Int) : Option Nat :=
  let (up₂, down₂) := power 2 e
  let (up, down) := power 10 exponent
  let below := m * up₂ * down / (up * down₂)
  match readsBack m e below exponent, readsBack m e (below + 1) exponent with
  | false, false => none
  | true, false => some below
  | false, true => some (below + 1)
  | true, true =>
    match compareScaled (2 * below + 1) exponent (2 * m) e with
    | .gt => some below
    | .lt => some (below + 1)
    | .eq => some (below + below % 2)

/-- The first grid with a hit, from `exponent` down, of at most `n` grids; the exact value if there is
none. -/
def firstGrid (m : Nat) (e : Int) (exponent : Int) : Nat → Nat × Int
  | 0 => (m * Nat.pow 2 e.toNat * Nat.pow 5 (-e).toNat, min e 0)
  | n + 1 =>
    match onGrid m e exponent with
    | some digits => (digits, exponent)
    | none => firstGrid m e (exponent - 1) n

/-- The digits of a number without the zeros at its end, and how many there were. -/
def significant (n : Nat) : List Char × Nat :=
  let digits := Nat.toDigits 10 n
  let kept := (digits.reverse.dropWhile (· == '0')).reverse
  (kept, digits.length - kept.length)

/-- A sign and at least two digits. -/
def exponentText (e : Int) : List Char :=
  (if e < 0 then '-' else '+') :: (Nat.toDigits 10 e.natAbs).leftpad 2 '0'

/-- Digits that start `point` places before the decimal point: written out while
`-4 < point ≤ 16`, with an exponent beyond. -/
def layout (digits : List Char) (point : Int) : List Char :=
  if -4 < point && point ≤ 0 then
    '0' :: '.' :: List.replicate (-point).toNat '0' ++ digits
  else if 0 < point && point ≤ 16 then
    let whole := (digits.take point.toNat).rightpad point.toNat '0'
    let part := digits.drop point.toNat
    whole ++ '.' :: (if part.isEmpty then ['0'] else part)
  else
    let tail := digits.drop 1
    digits.take 1 ++ (if tail.isEmpty then [] else '.' :: tail) ++ 'e' :: exponentText (point - 1)

/-- A number without its sign. -/
def magnitude (m : Nat) (e : Int) : List Char :=
  if m = 0 then "0.0".toList
  else
    let (n, exponent) := firstGrid m e (decimalOrder m e - 1) 17
    let (digits, dropped) := significant n
    layout digits (digits.length + dropped + exponent)

/-- The number as a text, always recognizable as a fraction or a power. -/
def text : Double → String
  | finite negative m e =>
    String.ofList (if negative then '-' :: magnitude m e else magnitude m e)
  | infinite false => "inf"
  | infinite true => "-inf"
  | nan => "nan"

end Typeahead.Double
