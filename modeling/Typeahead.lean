import Typeahead.Automaton
import Typeahead.Automaton.Builder
import Typeahead.Completion
import Typeahead.Double.Basic
import Typeahead.Double.Shortest
import Typeahead.Expected
import Typeahead.Fault
import Typeahead.Frontier.Marks
import Typeahead.Frontier.Search
import Typeahead.Frontier.Visit
import Typeahead.Interval
import Typeahead.Interval.Complement
import Typeahead.Measure
import Typeahead.Network.Basic
import Typeahead.Network.Convert
import Typeahead.Network.Lexing
import Typeahead.Note
import Typeahead.Numeral
import Typeahead.Outcome
import Typeahead.Preference
import Typeahead.Proofs.Admission
import Typeahead.Proofs.Completeness
import Typeahead.Proofs.Division
import Typeahead.Proofs.Enumeration
import Typeahead.Proofs.Expected
import Typeahead.Proofs.Frontier
import Typeahead.Proofs.Legality
import Typeahead.Proofs.Match
import Typeahead.Proofs.Narrowing
import Typeahead.Proofs.Occurrence
import Typeahead.Proofs.Path
import Typeahead.Proofs.Reach
import Typeahead.Proofs.Words
import Typeahead.Reach
import Typeahead.Recognizer
import Typeahead.Recognizer.Candidate
import Typeahead.Recognizer.Generated
import Typeahead.Recognizer.Given
import Typeahead.Roster
import Typeahead.Scanner.Basic
import Typeahead.Scanner.Lexer
import Typeahead.Scanner.Rules
import Typeahead.Scanner.Scripted
import Typeahead.Scanner.Shared
import Typeahead.Settings
import Typeahead.Suggest
import Typeahead.Text.Basic
import Typeahead.Text.Case
import Typeahead.Text.Digit
import Typeahead.Text.Printable
import Typeahead.Text.Quoted
import Typeahead.Token
import Typeahead.Traced
import Typeahead.Value
import Typeahead.Proofs.Drain
import Typeahead.Proofs.Totality
import Typeahead.Proofs.Tails
import Typeahead.Proofs.PrefixCode
import Typeahead.Proofs.Keywords
import Typeahead.Proofs.Munch
import Typeahead.Proofs.Answer
import Typeahead.Proofs.Coverage
import Typeahead.Proofs.Complement
import Typeahead.Proofs.Conversion
import Typeahead.Proofs.Preference
import Typeahead.Proofs.Lexing
import Typeahead.Proofs.LongestMatch
import Typeahead.Proofs.Refinement
import Typeahead.Proofs.Calls
import Typeahead.Proofs.Memory
import Typeahead.Proofs.Routes
import Typeahead.Proofs.CaseForms
import Typeahead.Proofs.Cutting
import Typeahead.Proofs.Labels
import Typeahead.Proofs.Discovery
import Typeahead.Proofs.Independence
import Typeahead.Proofs.Preservation
import Typeahead.Proofs.Construction
import Typeahead.Proofs.Building
import Typeahead.Proofs.Sharing
import Typeahead.Proofs.Unwinding
