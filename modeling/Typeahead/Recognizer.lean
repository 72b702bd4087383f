import Typeahead.Automaton
import Typeahead.Scanner.Rules

/-!
Recognizers: a grammar as a suggester sees it, with an automaton of characters, an automaton of
tokens, and a way to scan texts. Here from a list of rules.
-/
namespace Typeahead

structure Recognizer where
  /-- What the recognizer is called. -/
  name : String
  chars : Automaton
  tokens : Automaton
  /-- The state of the token automaton at the start of an input. -/
  initial : Nat
  /-- The state of the character automaton from which tokens of a kind start. -/
  entry : Int → Option Nat
  scan : Text → Except Fault Scan

namespace Recognizer

/-- Divides a text into tokens and what no token covers. -/
def tokenize (r : Recognizer) (text : Text) : Except Fault Tokenization :=
  (r.scan text).map (Tokenization.ofScan text)

/-- The first rule of a kind gives the kind its entry. -/
def ruleEntry (rules : List Rule) (kind : Int) : Option Nat :=
  (rules.find? (·.kind == kind)).map (·.entry)

/-- The recognizer for a list of rules. Without a state to start from, the first one of the token
automaton is taken. -/
def ofRules (chars tokens : Automaton) (rules : List Rule) (initial : Option Nat) :
    Except Fault Recognizer := do
  if rules.isEmpty then throw .noRules
  let initial ← match initial with
    | some s => pure s
    | none => if tokens.size = 0 then throw .outOfRange else pure 0
  return {
    name := "AutomatonRecognizer"
    chars, tokens, initial
    entry := ruleEntry rules
    scan := fun text => (ruleScanner chars rules).scan ⟨text, 0, none⟩ }

end Recognizer
end Typeahead
