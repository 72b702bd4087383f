import Typeahead.Double.Shortest
import Typeahead.Numeral

/-!
Values of no fixed type, as labels, offsets and settings arrive from outside: how messages show
them, what their types are called, and which whole number they stand for.
-/
namespace Typeahead

inductive Value where
  | null
  | bool (b : Bool)
  | int (n : Int)
  | double (d : Double)
  | text (t : Text)
  | list (items : List Value)
  | record (fields : List (Text × Value))
deriving Inhabited

namespace Value

mutual

/-- The value as messages show it. -/
def shown : Value → String
  | null => "None"
  | bool true => "True"
  | bool false => "False"
  | int n => toString n
  | double d => d.text
  | text t => t.quoted
  | list items => "[" ++ ", ".intercalate (shownItems items) ++ "]"
  | record fields => "\x7b" ++ ", ".intercalate (shownFields fields) ++ "\x7d"

def shownItems : List Value → List String
  | [] => []
  | v :: rest => v.shown :: shownItems rest

def shownFields : List (Text × Value) → List String
  | [] => []
  | (name, v) :: rest => (name.quoted ++ ": " ++ v.shown) :: shownFields rest

end

/-- The value as plain text: a text is itself, anything else is as messages show it. -/
def plain : Value → Text
  | text t => t
  | v => v.shown

/-- What the type of a value is called. -/
def typeName : Value → String
  | null => "NoneType"
  | bool _ => "bool"
  | int _ => "int"
  | double _ => "float"
  | text _ => "str"
  | list _ => "list"
  | record _ => "dict"

/-- The whole number a value stands for. -/
def toInt : Value → Except Fault Int
  | int n => .ok n
  | bool b => .ok (if b then 1 else 0)
  | double (.finite negative mantissa exponent) => .ok (Double.truncate negative mantissa exponent)
  | double (.infinite _) => .error .tooLarge
  | double .nan => .error .notNumber
  | text t => Numeral.read t
  | null | list _ | record _ => .error .wrongType

/-- The values a value is made up of: the characters of a text, the members of a list, the names in
a record. -/
def items : Value → Except Fault (List Value)
  | text t => .ok (t.map fun c => text [c])
  | list items => .ok items
  | record fields => .ok (fields.map fun field => text field.1)
  | null | bool _ | int _ | double _ => .error .wrongType

end Value
end Typeahead
