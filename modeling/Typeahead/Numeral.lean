import Typeahead.Fault
import Typeahead.Text.Digit

/-!
Whole numbers written as texts: an optional sign and decimal digits of any script, with blanks
around them. A single underscore may stand between two digits. Numerals that are too long are
refused before their value is worked out.
-/
namespace Typeahead.Numeral

/-- Blanks that may stand around a numeral: all but the four separators of the control characters. -/
def isBlank (c : CodePoint) : Bool := Text.isBlank c && !(0x1C ≤ c.toNat && c.toNat ≤ 0x1F)

/-- Further digits, first to last, and what follows them; none if an underscore is not followed by a
digit. -/
def moreDigits? : Text → Option (List Nat × Text)
  | [] => some ([], [])
  | c :: rest =>
    if c = '_' then
      match rest with
      | [] => none
      | c :: rest => do
        let d ← Text.digit? c
        let (digits, after) ← moreDigits? rest
        return (d :: digits, after)
    else
      match Text.digit? c with
      | none => some ([], c :: rest)
      | some d => do
        let (digits, after) ← moreDigits? rest
        return (d :: digits, after)

/-- The digits at the front of a text, at least one, and what follows them. -/
def digits? : Text → Option (List Nat × Text)
  | [] => none
  | c :: rest => do
    let d ← Text.digit? c
    let (digits, after) ← moreDigits? rest
    return (d :: digits, after)

/-- The number with the given digits, first to last. -/
def ofDigits (digits : List Nat) : Nat := digits.foldl (fun n d => 10 * n + d) 0

/-- Whether a minus sign leads, and what follows the sign, if there is one. -/
def sign : Text → Bool × Text
  | [] => (false, [])
  | c :: rest =>
    if c = '-' then (true, rest)
    else if c = '+' then (false, rest)
    else (false, c :: rest)

/-- The number that a text stands for. The length of a numeral is looked at before what follows it. -/
def read (t : Text) : Except Fault Int :=
  let (negative, body) := sign (t.dropWhile isBlank)
  match digits? body with
  | none => .error (.notNumeral t)
  | some (digits, after) =>
    if Fault.digitLimit < digits.length then .error (.tooManyDigits digits.length)
    else if !after.all isBlank then .error (.notNumeral t)
    else .ok (if negative then -(ofDigits digits : Int) else ofDigits digits)

end Typeahead.Numeral
