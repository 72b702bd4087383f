import Typeahead.Interval
import Typeahead.Text.Basic

/-!
Transition networks of generated lexers and parsers: numbered states with arcs between them. A rule
of the grammar has a start state and a stop state; an arc may call another rule and says where to
go on afterwards.
-/
namespace Typeahead

/-- Arcs lead to the state with number `target`, which may lie outside the network. -/
inductive Arc where
  | epsilon (target : Int)
  | atom (target label : Int)
  /-- The symbols from `first` to `last`, both included. -/
  | range (target first last : Int)
  /-- The symbols in a set; a set without a list of intervals is empty. -/
  | set (target : Int) (intervals : Option (List Interval))
  /-- The symbols outside a set. -/
  | notSet (target : Int) (intervals : Option (List Interval))
  | wildcard (target : Int)
  /-- Calls the rule that starts at `target`; `follow` is where to go on after it. -/
  | rule (target index follow : Int)
  | predicate (target : Int)
  | precedence (target level : Int)
  | action (target rule index : Int)
  /-- An arc of a kind that is not known, as messages show it. It may consume nothing. -/
  | unknown (target : Int) (shown : String) (silent : Bool)
deriving DecidableEq, Repr

namespace Arc

def target : Arc → Int
  | epsilon t | atom t _ | range t .. | set t _ | notSet t _ | wildcard t | rule t .. | predicate t
  | precedence t _ | action t .. | unknown t .. => t

/-- The arc consumes nothing. -/
def isSilent : Arc → Bool
  | epsilon _ | rule .. | predicate _ | precedence .. | action .. => true
  | unknown _ _ silent => silent
  | _ => false

/-- The arc consumes `symbol`, among the symbols of `alphabet`. -/
def accepts (alphabet : Interval) (symbol : Int) : Arc → Bool
  | atom _ label => label == symbol
  | range _ first last => first ≤ symbol && symbol ≤ last
  | set _ intervals => (intervals.getD []).any (·.contains symbol)
  | notSet _ intervals =>
    alphabet.contains symbol && !(intervals.getD []).any (·.contains symbol)
  | wildcard _ => alphabet.contains symbol
  | _ => false

end Arc

/-- The part a state plays in its rule. -/
inductive Place where
  | basic
  | start
  | stop
  | tokens
deriving DecidableEq, Repr

/-- A state of a network. -/
structure Station where
  place : Place := .basic
  /-- The rule the state belongs to. -/
  rule : Int := 0
  arcs : List Arc := []
deriving DecidableEq, Repr

/-- What a lexer does when a rule has matched. -/
inductive Action where
  | skip
  | channel (n : Int)
  | type (n : Int)
deriving DecidableEq, Repr

structure Network where
  /-- The states by number; a state may have been removed. -/
  stations : Array (Option Station) := #[]
  /-- The numbers of the rules' start states, if there is a table of them. -/
  starts : Option (List Int) := some []
  /-- The token kinds of a lexer's rules, if there is a table of them. A rule may have none. -/
  types : Option (List (Option Int)) := none
  /-- The state of a lexer from which all its token rules start. -/
  modeStart : Nat := 0
  actions : List Action := []
  /-- The largest token kind. -/
  maxKind : Int := 0
deriving DecidableEq, Repr

namespace Network

/-- The state with the given number. -/
def station? (n : Network) (number : Nat) : Option Station := n.stations[number]?.join

/-- The numbers of the states that were not removed, in order. -/
def numbers (n : Network) : List Nat :=
  (List.range n.stations.size).filter fun i => (n.station? i).isSome

/-- The entry of a table at a position; a negative position counts from the end. -/
def at? {α : Type} (table : List α) (position : Int) : Option α :=
  (if position < 0 then table.length + position else position).toNat?.bind (table[·]?)

/-- The arcs out of a state. -/
def arcs (n : Network) (number : Nat) : List Arc := ((n.station? number).map (·.arcs)).getD []

end Network
end Typeahead
