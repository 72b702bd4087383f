import Std.Data.HashMap
import Typeahead.Completion
import Typeahead.Expected
import Typeahead.Frontier.Visit
import Typeahead.Recognizer
import Typeahead.Recognizer.Candidate
import Typeahead.Settings
import Typeahead.Traced

/-!
Suggestions for a text typed so far. The text is scanned; the token automaton tells which kinds of
token may come next; the character automaton completes what is typed of such a token. A completion
is suggested if scanning the text with it added gives one more token and that token's kind is
accepted where the completion came from.

Scans of completions are remembered, and a completion that was suggested is not looked at again.
-/
namespace Typeahead

/-- A suggester for one recognizer. -/
structure Suggester where
  recognizer : Recognizer
  settings : Settings
  /-- The label of the case preference. -/
  label : Text

namespace Suggester

/-- Checks what is offered as a recognizer, then settles the case preference. -/
def configure (settings : Settings) (candidate : Candidate) (preference : Value) : Traced Text := do
  Traced.lift candidate.check
  let label ← Traced.lift (Preference.normalize settings.preference preference)
  Traced.tell (.configured candidate.name label)
  return label

/-- A suggester with the case preference asked for. -/
def make (settings : Settings) (recognizer : Recognizer) (preference : Value) :
    Traced Suggester := do
  let label ← configure settings (.ofRecognizer recognizer.name) preference
  return ⟨recognizer, settings, label⟩

/-- The tokens that the token automaton sees, and what no token covers. -/
def tokenize (s : Suggester) (text : Text) : Except Fault Tokenization :=
  (s.recognizer.tokenize text).map (·.onChannel s.settings.channel)

/-- A text that is being completed. -/
structure Request where
  text : Text
  tokens : List Token
  rest : Text

/-- What is known about completions so far. -/
structure Memory where
  /-- The suggestions, in order of discovery. -/
  collected : Roster Text := .empty
  /-- The tokens that completions were found to add. -/
  added : Std.HashMap Text (Option Token) := ∅

/-- The token that a completion adds: the last one, if there are more than before. -/
def addedToken (s : Suggester) (request : Request) (completion : Text) :
    Except Fault (Option Token) := do
  let t ← s.tokenize (request.text ++ completion)
  return if request.tokens.length < t.tokens.length then t.tokens.getLast? else none

/-- The token that a completion adds, looked up or found out. -/
def remember (s : Suggester) (request : Request) (memory : Memory) (completion : Text) :
    Except Fault (Option Token × Memory) :=
  match memory.added[completion]? with
  | some token => .ok (token, memory)
  | none => do
    let token ← s.addedToken request completion
    return (token, { memory with added := memory.added.insert completion token })

/-- Collects a completion found at the frontier state `f` if it is valid there. -/
def consider (s : Suggester) (request : Request) (f : Nat) (memory : Memory) (completion : Text) :
    Traced Memory :=
  if memory.collected.contains completion then pure memory
  else do
    let (token, memory) ← Traced.lift (s.remember request memory completion)
    match token with
    | none =>
      Traced.tell (.noWholeToken completion)
      return memory
    | some token =>
      if ← Traced.lift (s.recognizer.tokens.accepts f token.kind) then
        return { memory with collected := memory.collected.insert completion }
      else
        Traced.tell (.kindRefused completion token.kind (s.recognizer.tokens.id f))
        return memory

/-- Considers completions in turn. -/
def considerAll (s : Suggester) (request : Request) (f : Nat) (memory : Memory) :
    List Text → Traced Memory
  | [] => pure memory
  | c :: rest => do
    let memory ← s.consider request f memory c
    s.considerAll request f memory rest

/-- The task of completing what no token covers. -/
def task (s : Suggester) (request : Request) : Completion.Task where
  chars := s.recognizer.chars
  entry := s.recognizer.entry
  typed := request.rest
  preference := .ofLabel s.label

/-- The completions of the given kinds. -/
def completions (s : Suggester) (request : Request) (kinds : List Int) : Traced (List Text) :=
  let ended := Completion.complete (s.task request) {} kinds
  ⟨ended.progress.notes.toList, ended.outcome⟩

/-- Collects what is valid at one frontier state. -/
def suggestFrom (s : Suggester) (request : Request) (memory : Memory) (f : Nat) :
    Traced Memory := do
  let id := s.recognizer.tokens.id f
  Traced.tell (.frontier id)
  let kinds ← Traced.lift (s.recognizer.tokens.expected f)
  Traced.tell (.candidates id kinds)
  let found ← s.completions request kinds
  s.considerAll request f memory found

/-- The suggestions for a text. Frontier states are dealt with as they are found, so a fault at one of
them ends the search, and a fault of the search shows after the states found before it. -/
def suggest (s : Suggester) (text : Text) : Traced (List Text) := do
  let t ← Traced.lift (s.tokenize text)
  Traced.tell (.scanned text t.tokens.length t.rest)
  let request : Request := ⟨text, t.tokens, t.rest⟩
  let memory ← Frontier.visitEach s.recognizer.tokens (t.tokens.map (·.kind))
    (s.suggestFrom request) {} (.begin {} s.recognizer.initial)
  return memory.collected.toList

end Suggester
end Typeahead
