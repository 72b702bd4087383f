import Typeahead.Automaton
import Typeahead.Reach
import Typeahead.Scanner.Basic

/-!
Scanning by rules: every rule starts at a state of the character automaton and matches the words
that lead to a state without moves. At each position the longest match wins, the earliest rule on
ties; where no rule matches, scanning stops.
-/
namespace Typeahead

structure Rule where
  kind : Int
  name : Text
  /-- The state of the character automaton from which the rule starts. -/
  entry : Nat
  channel : Int := 0
deriving DecidableEq, Repr

namespace Automaton

/-- Where the epsilon moves of `s` lead. -/
def silent (a : Automaton) (s : Nat) : List Nat :=
  (a.moves s).filterMap fun
    | .epsilon t => some t
    | _ => none

/-- The given states and those that epsilon moves lead to from them. -/
def closure (a : Automaton) (states : List Nat) : List Nat :=
  (Region.below a.size).reach (fun s => s) a.silent states

/-- Where the moves of the given states lead on `symbol`. -/
def consume (a : Automaton) (states : List Nat) (symbol : Int) : Except Fault (List Nat) :=
  let moves := states.flatMap a.moves
  match moves.find? Move.isForeign with
  | some m => .error (.unexpectedMove (a.shownMove m) "scanning")
  | none => .ok ((moves.filter (·.accepts symbol)).map (·.target))

/-- The length of the longest match, given the states reached so far, how many characters led there,
and the longest match among those. -/
def matchFrom (a : Automaton) (current : List Nat) (consumed best : Nat) : Text → Except Fault Nat
  | [] => .ok best
  | c :: rest =>
    if current.isEmpty then .ok best
    else do
      let current := a.closure (← a.consume current c.toNat)
      a.matchFrom current (consumed + 1) (if current.any a.isFinal then consumed + 1 else best) rest

/-- The length of the longest word at the front of `text` that leads from `entry` to a state without
moves; zero if there is none. -/
def longestMatch (a : Automaton) (entry : Nat) (text : Text) : Except Fault Nat :=
  a.matchFrom (a.closure [entry]) 0 0 text

end Automaton

/-- A scanner at `position`, with `rest` still to scan. -/
structure RuleScan where
  rest : Text
  position : Nat := 0
  stop : Option Nat := none
deriving DecidableEq, Repr

namespace RuleScan

/-- The rule that wins at the front of `text`, with the length of its match. -/
def winner (chars : Automaton) (rules : List Rule) (text : Text) :
    Except Fault (Option (Match Rule)) := do
  let found ← rules.mapM fun r => return Match.ofLength? (← chars.longestMatch r.entry text) r
  return Match.longest found

/-- The next token. A fault leaves the scanner where it is. -/
def next (chars : Automaton) (rules : List Rule) (s : RuleScan) :
    Except Fault (Option Token) × RuleScan :=
  if s.stop.isSome then (.ok none, s)
  else if s.rest.isEmpty then (.ok none, { s with stop := some s.position })
  else
    match winner chars rules s.rest with
    | .error fault => (.error fault, s)
    | .ok none => (.ok none, { s with stop := some s.position })
    | .ok (some m) =>
      (.ok (some ⟨some m.meaning.kind, m.meaning.channel, s.rest.take m.length, s.position⟩),
        { s with rest := s.rest.drop m.length, position := s.position + m.length })

theorem next_lt {chars : Automaton} {rules : List Rule} {s s' : RuleScan} {t : Token}
    (h : s.next chars rules = (.ok (some t), s')) : s'.rest.length < s.rest.length := by
  simp only [next] at h
  split at h
  · simp at h
  · split at h
    · simp at h
    · rename_i hrest
      split at h
      · simp at h
      · simp at h
      · rename_i m hm
        simp only [Prod.mk.injEq] at h
        rw [← h.2]
        exact m.length_drop_lt (by simpa using hrest)

end RuleScan

/-- The scanner for a list of rules. -/
def ruleScanner (chars : Automaton) (rules : List Rule) : Scanner RuleScan where
  next := RuleScan.next chars rules
  stop s := s.stop.map Int.ofNat
  remaining s := s.rest.length
  next_lt := RuleScan.next_lt

end Typeahead
