import Typeahead.Text.Basic

/-!
Tokens, and the ways in which scanning hands them out.
-/
namespace Typeahead

structure Token where
  /-- A lexer may leave tokens without a kind. -/
  kind : Option Int
  channel : Int
  text : Text
  /-- The position of the first character in the input. -/
  start : Int
deriving DecidableEq, Repr

/-- The tokens of a text, and the position at which scanning stopped if there is one. -/
structure Scan where
  tokens : List Token
  stop : Option Int
deriving DecidableEq, Repr

/-- A text divided into tokens and what no token covers. -/
structure Tokenization where
  tokens : List Token
  rest : Text
deriving DecidableEq, Repr

namespace Tokenization

/-- Reads a scan of `text`; a scan without a stop covers all of it. -/
def ofScan (text : Text) (scan : Scan) : Tokenization :=
  ⟨scan.tokens, text.after (scan.stop.getD text.length)⟩

/-- Keeps the tokens of one channel. -/
def onChannel (channel : Int) (t : Tokenization) : Tokenization :=
  { t with tokens := t.tokens.filter (·.channel == channel) }

end Tokenization
end Typeahead
