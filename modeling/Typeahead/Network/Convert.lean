import Typeahead.Automaton
import Typeahead.Interval.Complement
import Typeahead.Network.Basic

/-!
Networks as automata. States keep their numbers as identifiers and their arcs in order; an arc that
consumes nothing becomes an epsilon move, and negated sets and wildcards are spelled out over a
finite alphabet. Where a call goes on afterwards plays no part.
-/
namespace Typeahead

namespace Arc

/-- The arc as a move to the state at position `target`. -/
def toMove (alphabet : Interval) (target : Nat) (arc : Arc) : Except Fault Move :=
  match arc with
  | epsilon _ | rule .. | predicate _ | precedence .. | action .. | unknown _ _ true =>
    .ok (.epsilon target)
  | atom _ label => .ok (.atomic label target)
  | range _ first last => .ok (.set [⟨first, last + 1⟩] target)
  | set _ intervals => .ok (.set (intervals.getD []) target)
  | notSet _ intervals => .ok (.set (Interval.complement (intervals.getD []) alphabet) target)
  | wildcard _ => .ok (.set [alphabet] target)
  | unknown _ shown false => .error (.unexpectedMove shown "ATN conversion")

end Arc

namespace Network

/-- The position that the state with the given number has in the automaton. -/
def position? (n : Network) (number : Int) : Option Nat :=
  n.numbers.findIdx? fun i : Nat => (i : Int) == number

/-- The position of a state that has to exist. -/
def position (n : Network) (number : Int) : Except Fault Nat :=
  match n.position? number with
  | some p => .ok p
  | none => .error (.unknownKey (toString number))

/-- Finds the target of an arc, then makes it a move. -/
def convertArc (n : Network) (alphabet : Interval) (arc : Arc) : Except Fault Move := do
  arc.toMove alphabet (← n.position arc.target)

def convertStation (n : Network) (alphabet : Interval) (number : Nat) : Except Fault Node := do
  return ⟨number, ← (n.arcs number).mapM (n.convertArc alphabet)⟩

/-- The automaton of a network. -/
def toAutomaton (n : Network) (alphabet : Interval) : Except Fault Automaton := do
  return ⟨(← n.numbers.mapM (n.convertStation alphabet)).toArray⟩

end Network
end Typeahead
