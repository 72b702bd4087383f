import Typeahead.Text.Case
import Typeahead.Value
import Typeahead.Automaton

/-!
Case preferences: which of two letters that differ only in case is offered when a set of
characters holds both.
-/
namespace Typeahead

inductive Preference where
  | lower
  | upper
  | both
deriving DecidableEq, Repr

namespace Preference

/-- The labels a caller may ask for. -/
def labels : List Text := ["LOWER", "UPPER", "BOTH"]

/-- The label asked for, whatever its case and the blanks around it; `null` asks for the default. -/
def normalize (default : Text) : Value → Except Fault Text
  | .null => .ok default
  | v =>
    let label := v.plain.strip.flatMap Text.upper
    if labels.contains label then .ok label else .error (.unsupportedPreference v.shown)

/-- What a label means. A label that is neither of the two filters filters nothing. -/
def ofLabel (label : Text) : Preference :=
  if label = "LOWER" then .lower
  else if label = "UPPER" then .upper
  else .both

/-- The move offers `t` as one character. -/
def offers (m : Move) : Text → Bool
  | [c] => m.accepts c.toNat
  | _ => false

/-- The character is dropped: it has the case not asked for and the move offers its other case. -/
def drops (p : Preference) (m : Move) (c : CodePoint) : Bool :=
  match p with
  | .lower => Text.upper c == [c] && Text.lower c != [c] && offers m (Text.lower c)
  | .upper => Text.lower c == [c] && Text.upper c != [c] && offers m (Text.upper c)
  | .both => false

@[simp] theorem drops_both (m : Move) (c : CodePoint) : Preference.both.drops m c = false := rfl

end Preference
end Typeahead
