import Typeahead.Measure
import Typeahead.Fault
import Typeahead.Interval

/-!
Automata as arrays of nodes. A state is a position in the array; a node also carries an identifier,
which is what messages and keys show. Identifiers of different states may be equal.
-/
namespace Typeahead

/-- A move leads to the state at position `target`. -/
inductive Move where
  | epsilon (target : Nat)
  | atomic (label : Int) (target : Nat)
  | set (intervals : List Interval) (target : Nat)
  /-- A move of a kind that no traversal understands. -/
  | foreign (name : String) (target : Nat)
deriving DecidableEq, Repr

namespace Move

def target : Move → Nat
  | epsilon t | atomic _ t | set _ t | foreign _ t => t

/-- What the kind of a move is called. -/
def kind : Move → String
  | epsilon _ => "epsilon"
  | atomic .. => "atomic"
  | set .. => "set"
  | foreign name _ => name

def isForeign : Move → Bool
  | foreign .. => true
  | _ => false

/-- The move consumes `symbol`. -/
def accepts (symbol : Int) : Move → Bool
  | epsilon _ | foreign .. => false
  | atomic label _ => label == symbol
  | set intervals _ => intervals.any (·.contains symbol)

/-- The symbols the move consumes, interval by interval, with repetitions. -/
def symbols : Move → List Int
  | epsilon _ | foreign .. => []
  | atomic label _ => [label]
  | set intervals _ => intervals.flatMap Interval.members

/-- The move consumes a token of the given kind. A token may be of no kind, and then no move does. -/
def takes (kind : Option Int) (m : Move) : Bool := kind.any fun k => m.accepts k

@[simp] theorem takes_some (k : Int) (m : Move) : m.takes (some k) = m.accepts k := rfl

theorem accepts_iff_mem_symbols {m : Move} {x : Int} : m.accepts x = true ↔ x ∈ m.symbols := by
  cases m with
  | atomic label => simpa [accepts, symbols] using eq_comm
  | _ => simp [accepts, symbols]

/-- A move as seen from outside: the identifiers of its ends and its kind. -/
structure Key where
  source : Int
  kind : String
  target : Int
deriving DecidableEq, Repr

end Move

structure Node where
  id : Int
  /-- In grammar order; every traversal follows this order. -/
  moves : List Move
deriving DecidableEq, Repr

structure Automaton where
  nodes : Array Node
deriving DecidableEq, Repr

namespace Automaton

def size (a : Automaton) : Nat := a.nodes.size

/-- The moves out of state `s`; a position without a node has none. -/
def moves (a : Automaton) (s : Nat) : List Move := (a.nodes[s]?.map (·.moves)).getD []

/-- The identifier of state `s`. -/
def id (a : Automaton) (s : Nat) : Int := (a.nodes[s]?.map (·.id)).getD s

/-- A state without moves ends a word. -/
def isFinal (a : Automaton) (s : Nat) : Bool := (a.moves s).isEmpty

def key (a : Automaton) (s : Nat) (m : Move) : Move.Key := ⟨a.id s, m.kind, a.id m.target⟩

/-- The last state with identifier `id`. -/
def find? (a : Automaton) (id : Int) : Option Nat :=
  (List.range a.size).reverse.find? fun s => a.id s == id

/-- A move as messages show it. -/
def shownMove (a : Automaton) (m : Move) : String :=
  m.kind ++ "(target=State(" ++ toString (a.id m.target) ++ "))"

/-- The fault of a traversal that meets `m` in the automaton called `role`, at state `s`. -/
def unexpected (a : Automaton) (role : String) (s : Nat) (m : Move) : Fault :=
  .unexpectedMove (a.shownMove m) (role ++ " automaton, state " ++ toString (a.id s))

/-- Why a traversal of the token automaton cannot pass the move `m` of state `s` with a token of the
given kind: the move is not understood, or it would look for no kind in an interval. -/
def obstacle? (a : Automaton) (s : Nat) (kind : Option Int) (m : Move) : Option Fault :=
  match m, kind with
  | .foreign .., _ => some (a.unexpected "token" s m)
  | .set (_ :: _) _, none => some .wrongType
  | _, _ => none

theorem obstacle?_some (a : Automaton) (s : Nat) (k : Int) (m : Move) :
    a.obstacle? s (some k) m = if m.isForeign then some (a.unexpected "token" s m) else none := by
  cases m <;> simp [obstacle?, Move.isForeign]

theorem moves_eq_nil (a : Automaton) {s : Nat} (h : a.size ≤ s) : a.moves s = [] := by
  simp only [moves, size] at *
  simp [Array.getElem?_eq_none h]

theorem lt_size_of_mem_moves {a : Automaton} {s : Nat} {m : Move} (h : m ∈ a.moves s) :
    s < a.size := by
  apply Nat.lt_of_not_le
  intro hs
  simp [moves_eq_nil a hs] at h

/-- The sum of a quantity over all moves, a bound on its sum over the moves of one state. -/
def total (a : Automaton) (f : Move → Nat) : Nat :=
  sumOver (fun node => sumOver f node.moves) a.nodes.toList

theorem sumOver_moves_le_total (a : Automaton) (f : Move → Nat) (s : Nat) :
    sumOver f (a.moves s) ≤ a.total f := by
  cases h : a.nodes[s]? with
  | none => simp [moves, h, sumOver]
  | some node =>
    have hmem : node ∈ a.nodes.toList := by
      obtain ⟨hs, rfl⟩ := Array.getElem?_eq_some_iff.1 h
      exact Array.getElem_mem_toList hs
    simpa [moves, h, total] using le_sumOver_of_mem (fun node => sumOver f node.moves) hmem

end Automaton
end Typeahead
