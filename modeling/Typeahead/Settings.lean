import Typeahead.Interval
import Typeahead.Text.Basic

/-!
What can be set for all recognizers and suggesters.
-/
namespace Typeahead

structure Settings where
  /-- The characters over which negated sets and wildcards of a lexer are spelled out. -/
  alphabet : Interval := ⟨0x20, 0x7F⟩
  /-- The channel whose tokens the token automaton sees. -/
  channel : Int := 0
  /-- The label of the case preference when none is asked for. -/
  preference : Text := "BOTH"
deriving DecidableEq, Repr

end Typeahead
