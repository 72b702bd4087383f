import Typeahead.Recognizer.Candidate
import Typeahead.Recognizer.Generated

/-!
Making a recognizer from what is given: a recognizer alone is checked and taken as it is, a lexer
class with a parser class is converted.
-/
namespace Typeahead

inductive Given where
  | value (v : Value)
  | object (c : Candidate)
  | generated (c : GeneratedClass)

/-- A recognizer that was given, or one that was converted. -/
inductive Made where
  | same (c : Candidate)
  | converted (c : Converted)

namespace Given

/-- What is given, seen as a recognizer. A class is no recognizer itself. -/
def candidate : Given → Candidate
  | value v => .ofValue v
  | object c => c
  | generated _ => { name := "type" }

/-- What is given, seen as a generated class. -/
def generatedClass : Given → GeneratedClass
  | value v => { shown := v.shown }
  | object c => { shown := c.name }
  | generated c => c

/-- Makes a recognizer of a lexer and a parser, or of a recognizer when no parser is given. -/
def make (alphabet : Interval) (lexer parser : Given) : Except Fault Made :=
  match parser with
  | value .null => do
    lexer.candidate.check
    return .same lexer.candidate
  | _ => return .converted (← Converted.make alphabet lexer.generatedClass parser.generatedClass none)

end Given
end Typeahead
