import Typeahead.Text.Basic
import Typeahead.Text.Printable

/-!
Quoted texts, as messages show them. Single quotes stand around the text unless it holds one and
no double quote; what would be mistaken for a quote, and what cannot be seen, is escaped.
-/
namespace Typeahead.Text

/-- The quote character that stands around `t`. -/
def quoteOf (t : Text) : Char :=
  let holds (c : Char) : Bool := t.contains (c : CodePoint)
  if holds '\'' && !holds '"' then '"' else '\''

/-- At least `width` lower-case hexadecimal digits. -/
def hex (width code : Nat) : List Char :=
  (Nat.toDigits 16 code).leftpad width '0'

/-- One character between quotes `q`. -/
def escape (q : Char) (c : CodePoint) : List Char :=
  if c == q || c == '\\' then ['\\', c.toChar]
  else if c == '\n' then ['\\', 'n']
  else if c == '\r' then ['\\', 'r']
  else if c == '\t' then ['\\', 't']
  else if isPrintable c then [c.toChar]
  else if c.toNat < 0x100 then '\\' :: 'x' :: hex 2 c.toNat
  else if c.toNat < 0x10000 then '\\' :: 'u' :: hex 4 c.toNat
  else '\\' :: 'U' :: hex 8 c.toNat

/-- The text in quotes. -/
def quoted (t : Text) : String :=
  let q := quoteOf t
  String.ofList (q :: t.flatMap (escape q) ++ [q])

end Typeahead.Text
