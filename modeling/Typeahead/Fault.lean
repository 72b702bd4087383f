import Typeahead.Text.Quoted

/-!
What can go wrong, as causes. `Fault.message` is the only place that words them, `Fault.family` tells
which family a cause belongs to.
-/
namespace Typeahead

/-- The families of faults a caller may want to tell apart. -/
inductive Fault.Family where
  | contract
  | configuration
  | value
  | key
  | type
  | index
  | overflow
deriving DecidableEq, Repr

inductive Fault where
  /-- A traversal met a move of a kind it does not know. -/
  | unexpectedMove (shown place : String)
  /-- A generated class carries no transition network. -/
  | noNetwork (role shown : String)
  /-- No start rule was asked for and the parser network is empty. -/
  | emptyNetwork
  /-- A recognizer object lacks the named parts. -/
  | missingParts (name : String) (parts : List String)
  /-- A recognizer object cannot be asked to do the named thing. -/
  | missingOperation (name operation : String)
  | notOneCharacter (label : Text)
  | notNumeral (numeral : Text)
  /-- A whole number was asked of something that is no number at all. -/
  | notNumber
  /-- A numeral has more digits than are read. -/
  | tooManyDigits (count : Nat)
  | emptyInterval (start stop : Int)
  /-- A label is too large to be a character. -/
  | notCharacter
  | noRules
  | unknownStartRule (name : Text)
  | unsupportedPreference (shown : String)
  | unknownKey (shown : String)
  | wrongType
  | outOfRange
  /-- A number is too large for what it is used for. -/
  | tooLarge
deriving DecidableEq, Repr

namespace Fault

def family : Fault → Fault.Family
  | unexpectedMove .. => .contract
  | noNetwork .. | emptyNetwork | missingParts .. | missingOperation .. => .configuration
  | notOneCharacter _ | notNumeral _ | notNumber | tooManyDigits _ | emptyInterval ..
  | notCharacter | noRules | unknownStartRule _ | unsupportedPreference _ => .value
  | unknownKey _ => .key
  | wrongType => .type
  | outOfRange => .index
  | tooLarge => .overflow

/-- How much of a refused numeral is shown, quotes and escapes included. -/
def shownNumeral : Nat := 200

/-- The greatest number of digits that is read. -/
def digitLimit : Nat := 4300

def message : Fault → String
  | unexpectedMove shown place =>
    if place.isEmpty then "Unexpected transition: " ++ shown
    else "Unexpected transition: " ++ shown ++ " (" ++ place ++ ")"
  | noNetwork role shown =>
    role ++ " class " ++ shown ++ " has no ATN. Please use ANTLR4 version 4.7.1 or above."
  | emptyNetwork => "parser ATN has no states"
  | missingParts name parts =>
    name ++ " does not expose " ++ ", ".intercalate parts ++
      "; the recognizer is incompatible with the autosuggest engine."
  | missingOperation name operation => name ++ " is missing " ++ operation ++ "()"
  | notOneCharacter label => "character label must be a single character: " ++ label.quoted
  | notNumeral numeral =>
    "invalid literal for int() with base 10: " ++
      String.ofList (numeral.quoted.toList.take shownNumeral)
  | notNumber => "cannot convert float NaN to integer"
  | tooManyDigits count =>
    "Exceeds the limit (" ++ toString digitLimit ++
      " digits) for integer string conversion: value has " ++ toString count ++
      " digits; use sys.set_int_max_str_digits() to increase the limit"
  | emptyInterval start stop => "empty interval: [" ++ toString start ++ ", " ++ toString stop ++ ")"
  | notCharacter => "chr() arg not in range(0x110000)"
  | noRules => "AutomatonRecognizer: at least one token rule is required"
  | unknownStartRule name => "unknown start rule: " ++ name.quoted
  | unsupportedPreference shown =>
    "Unsupported case preference: " ++ shown ++ " (expected one of ('LOWER', 'UPPER', 'BOTH'))"
  | unknownKey shown => shown
  | wrongType => "unsuitable type"
  | outOfRange => "index out of range"
  | tooLarge => "number too large"

end Fault
end Typeahead
