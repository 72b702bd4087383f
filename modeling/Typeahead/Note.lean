import Typeahead.Value

/-!
Notes: what a suggester tells about its work while it goes on.
-/
namespace Typeahead

inductive Note where
  /-- Both networks were converted. -/
  | networksReady (charStates tokenStates kinds : Nat)
  | configured (recognizer : String) (preference : Text)
  | scanned (text : Text) (tokens : Nat) (rest : Text)
  | frontier (id : Int)
  | candidates (id : Int) (kinds : List Int)
  | noEntry (kind : Int)
  /-- A completion of `token`, of which `tail` is not typed yet. -/
  | completion (tail token : Text)
  | noWholeToken (suggestion : Text)
  | kindRefused (suggestion : Text) (kind : Option Int) (id : Int)
deriving DecidableEq, Repr

namespace Note

/-- Who says it. -/
def speaker : Note → String
  | networksReady .. => "autosuggest.recognizer.antlr_recognizer"
  | configured .. | scanned .. | candidates .. | noWholeToken _ | kindRefused .. =>
    "autosuggest.engine"
  | frontier _ => "autosuggest.parser_walk"
  | noEntry _ | completion .. => "autosuggest.token_suggester"

def level : Note → String
  | networksReady .. | configured .. => "INFO"
  | _ => "DEBUG"

/-- The wording, with a place for each argument. -/
def template : Note → String
  | networksReady .. => "ANTLR recognizer ready: lexer states=%d parser states=%d token kinds=%d"
  | configured .. => "AutoSuggester configured: recognizer=%s case_preference=%s"
  | scanned .. => "input %r: %d tokens, untokenized %r"
  | frontier _ => "frontier state %d"
  | candidates .. => "frontier state %d: candidate token kinds %s"
  | noEntry _ => "no lexer entry state for token kind %d"
  | completion .. => "raw suggestion %r (token %r)"
  | noWholeToken _ => "rejected %r: completes no whole token"
  | kindRefused .. => "rejected %r: token kind %d not accepted at state %d"

def arguments : Note → List Value
  | networksReady c t k => [.int c, .int t, .int k]
  | configured recognizer preference => [.text recognizer, .text preference]
  | scanned text tokens rest => [.text text, .int tokens, .text rest]
  | frontier id => [.int id]
  | candidates id kinds => [.int id, .list (kinds.map .int)]
  | noEntry kind => [.int kind]
  | completion tail token => [.text tail, .text token]
  | noWholeToken suggestion => [.text suggestion]
  | kindRefused suggestion kind id =>
    [.text suggestion, (kind.map Value.int).getD .null, .int id]

end Note
end Typeahead
