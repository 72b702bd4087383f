import Typeahead.Network.Convert
import Typeahead.Network.Lexing
import Typeahead.Note
import Typeahead.Recognizer
import Typeahead.Settings

/-!
Recognizers from a generated lexer and parser: their networks become the two automata, and the lexer
itself scans.
-/
namespace Typeahead

/-- A generated lexer or parser class, or something given in place of one. -/
structure GeneratedClass where
  /-- The class as messages show it. -/
  shown : String
  network : Option Network := none
  ruleNames : List Text := []
deriving DecidableEq, Repr

namespace GeneratedClass

/-- The network of a class that has to have one. -/
def require (c : GeneratedClass) (role : String) : Except Fault Network :=
  match c.network with
  | some n => .ok n
  | none => .error (.noNetwork role c.shown)

end GeneratedClass

/-- What is made of the two networks. -/
structure Converted where
  chars : Automaton
  tokens : Automaton
  initial : Nat
  ruleNames : List Text
  /-- The entry of each kind. -/
  entries : List (Int × Nat)
deriving DecidableEq, Repr

namespace Converted

/-- The number of the state where the parser starts. -/
def startNumber (parser : Network) (ruleNames : List Text) (startRule : Option Text) :
    Except Fault Int :=
  let starts := parser.starts.getD []
  match startRule with
  | some name =>
    match ruleNames.idxOf? name with
    | none => .error (.unknownStartRule name)
    | some i =>
      match starts[i]? with
      | some number => .ok number
      | none => .error .outOfRange
  | none =>
    match starts, parser.numbers with
    | number :: _, _ => .ok number
    | [], number :: _ => .ok number
    | [], [] => .error .emptyNetwork

/-- The entry of a rule, by the table of the rules' start states. -/
def ruleStart (lexer : Network) (i : Nat) : Except Fault Nat :=
  match lexer.starts with
  | none => .error .wrongType
  | some starts =>
    match starts[i]? with
    | some number => lexer.position number
    | none => .error .outOfRange

/-- The entries of the rules from the `i`-th on, after those found before. Rules without a positive
kind have none, and the first rule of a kind gives the kind its entry. -/
def entriesFrom (lexer : Network) (i : Nat) (entries : List (Int × Nat)) :
    List (Option Int) → Except Fault (List (Int × Nat))
  | [] => .ok entries
  | type :: types =>
    match type with
    | none => entriesFrom lexer (i + 1) entries types
    | some kind =>
      if kind ≤ 0 then entriesFrom lexer (i + 1) entries types
      else do
        let start ← ruleStart lexer i
        let known := entries.any (·.1 == kind)
        entriesFrom lexer (i + 1) (if known then entries else entries ++ [(kind, start)]) types

/-- Converts the networks of a lexer and a parser; the parser starts at `startRule` or at its first
rule. -/
def make (alphabet : Interval) (lexer parser : GeneratedClass) (startRule : Option Text) :
    Except Fault Converted := do
  let lexerNetwork ← lexer.require "lexer"
  let parserNetwork ← parser.require "parser"
  let chars ← lexerNetwork.toAutomaton alphabet
  let tokens ← parserNetwork.toAutomaton ⟨1, parserNetwork.maxKind + 1⟩
  let number ← startNumber parserNetwork parser.ruleNames startRule
  let initial ← parserNetwork.position number
  let entries ← entriesFrom lexerNetwork 0 [] (lexerNetwork.types.getD [])
  return { chars, tokens, initial, ruleNames := parser.ruleNames, entries }

def entry (c : Converted) (kind : Int) : Option Nat := c.entries.lookup kind

def note (c : Converted) : Note := .networksReady c.chars.size c.tokens.size c.entries.length

end Converted

namespace Recognizer

/-- The recognizer for converted networks, with a lexer that scans. -/
def ofConverted {σ : Type} (c : Converted) (l : Lexer σ) : Recognizer where
  name := "AntlrRecognizer"
  chars := c.chars
  tokens := c.tokens
  initial := c.initial
  entry := c.entry
  scan text := (({} : Session σ).scan l text).1

end Recognizer
end Typeahead
