import Typeahead.Automaton
import Typeahead.Value

/-!
Automata built by hand, one step at a time. New states are numbered in order of creation. A step
that is refused changes no move, but the new state it would have led to stays.
-/
namespace Typeahead

/-- A label given from outside: one character, or a number. -/
def Value.toSymbol : Value → Except Fault Int
  | .text [c] => .ok c.toNat
  | .text t => .error (.notOneCharacter t)
  | v => v.toInt

/-- An interval given from outside: one character, two characters (both included), or two numbers
(the second excluded). -/
def Value.toInterval : Value → Except Fault Interval
  | .text t => do
    let code ← (Value.text t).toSymbol
    return ⟨code, code + 1⟩
  | .list (.text t :: rest) => do
    let first ← (Value.text t).toSymbol
    match rest with
    | [] => throw .outOfRange
    | last :: _ => return ⟨first, (← last.toSymbol) + 1⟩
  | .list (start :: rest) => do
    let start ← start.toInt
    match rest with
    | [] => throw .outOfRange
    | stop :: _ =>
      let stop ← stop.toInt
      if stop ≤ start then throw (.emptyInterval start stop) else return ⟨start, stop⟩
  | .list [] => .error .outOfRange
  | .record _ => .error (.unknownKey "0")
  | _ => .error .wrongType

/-- Intervals given from outside, one for each item of a value. -/
def Value.toIntervals (v : Value) : Except Fault (List Interval) := do
  (← v.items).mapM Value.toInterval

/-- The state with the given identifier. -/
def Automaton.lookup (a : Automaton) (id : Value) : Except Fault Nat := do
  match a.find? (← id.toInt) with
  | some s => return s
  | none => throw (.unknownKey id.shown)

/-- The states made so far, and the automaton as it was last handed out. The states of an automaton that
was handed out stay the builder's own: it only tells which of them it has, under which identifiers. -/
structure Builder where
  nodes : Array Node := #[]
  built : Option Automaton := none
deriving DecidableEq, Repr

namespace Builder

/-- The automaton of all states made so far. -/
def automaton (b : Builder) : Automaton := ⟨b.nodes⟩

def size (b : Builder) : Nat := b.nodes.size

/-- Adds a state, which is the one at position `b.size`. -/
def newState (b : Builder) : Builder :=
  { b with nodes := b.nodes.push ⟨b.size, []⟩ }

/-- Adds a move after the others of state `s`. -/
def addMove (b : Builder) (s : Nat) (m : Move) : Builder :=
  { b with nodes := b.nodes.modify s fun node => { node with moves := node.moves ++ [m] } }

@[simp] theorem size_automaton (b : Builder) : b.automaton.size = b.size := rfl

@[simp] theorem size_newState (b : Builder) : b.newState.size = b.size + 1 := by
  simp [newState, size]

@[simp] theorem size_addMove (b : Builder) (s : Nat) (m : Move) : (b.addMove s m).size = b.size := by
  simp [addMove, size]

/-- A new state has no moves, and a position without a state had none before. -/
@[simp] theorem moves_newState (b : Builder) (t : Nat) :
    b.newState.automaton.moves t = b.automaton.moves t := by
  simp only [automaton, newState, Automaton.moves, Array.getElem?_push]
  split
  · rename_i ht
    simp [ht, size]
  · rfl

theorem moves_addMove {b : Builder} {s : Nat} (hs : s < b.size) (m : Move) (t : Nat) :
    (b.addMove s m).automaton.moves t =
      if t = s then b.automaton.moves t ++ [m] else b.automaton.moves t := by
  simp only [automaton, addMove, Automaton.moves, Array.getElem?_modify]
  by_cases ht : t = s
  · subst ht
    simp [show b.nodes[t]? = some b.nodes[t] from Array.getElem?_eq_getElem hs]
  · simp [ht, Ne.symm ht]

/-- The target asked for, or a new state. -/
def withTarget (b : Builder) : Option Nat → Nat × Builder
  | some t => (t, b)
  | none => (b.size, b.newState)

/-- Adds the move that `label` describes; the target is made before the label is looked at. -/
def addLabelled (b : Builder) (s : Nat) (target : Option Nat) (label : Nat → Except Fault Move) :
    Except Fault Nat × Builder :=
  let (t, b) := b.withTarget target
  match label t with
  | .ok m => (.ok t, b.addMove s m)
  | .error fault => (.error fault, b)

def atomic (b : Builder) (s : Nat) (label : Value) (target : Option Nat) :
    Except Fault Nat × Builder :=
  b.addLabelled s target fun t => return .atomic (← label.toSymbol) t

def charSet (b : Builder) (s : Nat) (intervals : Value) (target : Option Nat) :
    Except Fault Nat × Builder :=
  b.addLabelled s target fun t => return .set (← intervals.toIntervals) t

/-- A chain of new states, one move per character; gives the last state. -/
def literal (b : Builder) (s : Nat) : Text → Nat × Builder
  | [] => (s, b)
  | c :: rest => (b.newState.addMove s (.atomic c.toNat b.size)).literal b.size rest

/-- A chain of new states, one move per label, up to the first label that is refused. -/
def chainFrom (b : Builder) (s : Nat) : List Value → Except Fault Nat × Builder
  | [] => (.ok s, b)
  | label :: rest =>
    match b.atomic s label none with
    | (.ok t, b) => b.chainFrom t rest
    | (.error fault, b) => (.error fault, b)

/-- A chain of new states, one move for each item of a value. -/
def chain (b : Builder) (s : Nat) (labels : Value) : Except Fault Nat × Builder :=
  match labels.items with
  | .ok labels => b.chainFrom s labels
  | .error fault => (.error fault, b)

/-- The state with the given identifier, among the states there were when the automaton was handed
out. Moves added since are visible. -/
def lookup (b : Builder) (id : Value) : Except Fault Nat :=
  match b.built with
  | none => .error .wrongType
  | some handed => handed.lookup id

/-- What a builder can be asked to do; states are given by position. -/
inductive Step where
  | newState
  | epsilon (source target : Nat)
  | atomic (source : Nat) (label : Value) (target : Option Nat)
  | charSet (source : Nat) (intervals : Value) (target : Option Nat)
  | literal (source : Nat) (text : Text)
  | chain (source : Nat) (labels : Value)
  | foreign (name : String) (source target : Nat)
  | build
  | length
  | lookup (id : Value)

/-- What a step gives back. -/
inductive Answer where
  | state (s : Nat)
  | count (n : Nat)
  | node (s : Nat)

namespace Step

/-- The states a step names. -/
def mentions : Step → List Nat
  | .newState | .build | .length | .lookup _ => []
  | .epsilon s t | .foreign _ s t => [s, t]
  | .atomic s _ t | .charSet s _ t => s :: t.toList
  | .literal s _ | .chain s _ => [s]

end Step

/-- One step on states that exist. -/
def perform (b : Builder) : Step → Except Fault Answer × Builder
  | .newState => (.ok (.state b.size), b.newState)
  | .epsilon s t => (.ok (.state t), b.addMove s (.epsilon t))
  | .atomic s label t => let (r, b) := b.atomic s label t; (r.map .state, b)
  | .charSet s intervals t => let (r, b) := b.charSet s intervals t; (r.map .state, b)
  | .literal s text => let (last, b) := b.literal s text; (.ok (.state last), b)
  | .chain s labels => let (r, b) := b.chain s labels; (r.map .state, b)
  | .foreign name s t => (.ok (.state t), b.addMove s (.foreign name t))
  | .build => (.ok (.count b.size), { b with built := some b.automaton })
  | .length =>
    (match b.built with | some handed => .ok (.count handed.size) | none => .error .wrongType, b)
  | .lookup id => ((b.lookup id).map .node, b)

/-- One step; a step that names a state which does not exist is refused. -/
def step (b : Builder) (s : Step) : Except Fault Answer × Builder :=
  if s.mentions.all (· < b.size) then b.perform s else (.error .outOfRange, b)

/-- The answers to steps in order, whether or not some are refused, each with the builder after it. -/
def answers (b : Builder) : List Step → List (Except Fault Answer × Builder)
  | [] => []
  | s :: rest =>
    let (answer, b) := b.step s
    (answer, b) :: b.answers rest

/-- The builder after steps in order, whether or not some are refused. -/
def run (b : Builder) (steps : List Step) : Builder :=
  steps.foldl (fun b s => (b.step s).2) b

/-- Steps in order up to the first that is refused. -/
def runAll (b : Builder) : List Step → Except Fault Builder
  | [] => .ok b
  | s :: rest =>
    match b.step s with
    | (.ok _, b) => b.runAll rest
    | (.error fault, _) => .error fault

end Builder
end Typeahead
