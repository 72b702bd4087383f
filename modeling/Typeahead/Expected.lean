import Typeahead.Automaton
import Typeahead.Roster

/-!
What may come next from a state of the token automaton: the kinds expected there, and whether one
given kind is accepted. Both look through epsilon moves, and follow an epsilon move once for each
key, so moves with equal keys count as one.
-/
namespace Typeahead

namespace Automaton

variable (a : Automaton)

/-- The keys of all moves. -/
def keys : List Move.Key := (List.range a.size).flatMap fun s => (a.moves s).map (a.key s)

theorem key_mem_keys {s : Nat} {m : Move} (h : m ∈ a.moves s) : a.key s m ∈ a.keys :=
  List.mem_flatMap.2
    ⟨s, List.mem_range.2 (lt_size_of_mem_moves h), List.mem_map.2 ⟨m, h, rfl⟩⟩

/-- The keys not followed yet. -/
def fresh (followed : List Move.Key) : Nat := a.keys.countP fun k => !followed.contains k

theorem fresh_cons {followed : List Move.Key} {k : Move.Key} (hk : k ∈ a.keys)
    (h : followed.contains k = false) : a.fresh (k :: followed) < a.fresh followed := by
  apply countP_lt_countP (a := k)
  · intro x _
    simp
  · exact hk
  · simp
  · simpa using h

/-- A move that waits to be looked at. -/
structure Pending where
  source : Nat
  move : Move
  mem : move ∈ a.moves source

/-- The moves out of `s`, waiting in order. -/
def pending (s : Nat) : List a.Pending := (a.moves s).attach.map fun m => ⟨s, m.1, m.2⟩

/-- Collects the labels of the waiting moves and of what they lead to. -/
def collect (followed : List Move.Key) (labels : Roster Int) :
    List a.Pending → Except Fault (Roster Int)
  | [] => .ok labels
  | p :: waiting =>
    match p.move with
    | .epsilon t =>
      if _h : followed.contains (a.key p.source p.move) then collect followed labels waiting
      else collect (a.key p.source p.move :: followed) labels (a.pending t ++ waiting)
    | .foreign name t => .error (a.unexpected "token" p.source (.foreign name t))
    | m => collect followed (labels.insertAll m.symbols) waiting
termination_by waiting => (a.fresh followed, waiting.length)
decreasing_by
  · exact .right _ (by simp)
  · exact .left _ _ (a.fresh_cons (a.key_mem_keys p.mem) (by simpa using _h))
  · exact .right _ (by simp)

/-- The kinds of token that may come next from `s`, in order of discovery. -/
def expected (s : Nat) : Except Fault (List Int) := do
  return (← a.collect [] .empty (a.pending s)).toList

/-- Lays the targets of the epsilon moves among `moves` on the stack, the last on top, leaving out
those whose keys were followed. -/
def follow (s : Nat) (followed : List Move.Key) (stack : List Nat) :
    List Move → List Move.Key × List Nat
  | [] => (followed, stack)
  | .epsilon t :: moves =>
    let k := a.key s (.epsilon t)
    if followed.contains k then follow s followed stack moves
    else follow s (k :: followed) (t :: stack) moves
  | _ :: moves => follow s followed stack moves

theorem follow_le {s : Nat} {moves : List Move} (h : ∀ m ∈ moves, m ∈ a.moves s)
    (followed : List Move.Key) (stack : List Nat) :
    a.fresh (a.follow s followed stack moves).1 + (a.follow s followed stack moves).2.length ≤
      a.fresh followed + stack.length := by
  induction moves generalizing followed stack with
  | nil => simp [follow]
  | cons m moves ih =>
    have hmoves : ∀ m ∈ moves, m ∈ a.moves s := fun x hx => h x (List.mem_cons_of_mem m hx)
    cases m with
    | epsilon t =>
      simp only [follow]
      split
      · exact ih hmoves followed stack
      · rename_i hk
        have hlt := a.fresh_cons (a.key_mem_keys (h _ List.mem_cons_self)) (by simpa using hk)
        have := ih hmoves (a.key s (.epsilon t) :: followed) (t :: stack)
        simp only [List.length_cons] at this
        omega
    | _ => exact ih hmoves followed stack

/-- A move of state `s` that settles whether a kind is accepted: it consumes the kind, or cannot be
passed. -/
def settles (s : Nat) (kind : Option Int) (m : Move) : Bool :=
  (a.obstacle? s kind m).isSome || m.takes kind

/-- Looks for a move that consumes the kind at the states on the stack, top first. -/
def acceptsFrom (kind : Option Int) (followed : List Move.Key) : List Nat → Except Fault Bool
  | [] => .ok false
  | s :: stack =>
    match (a.moves s).find? (a.settles s kind) with
    | some m =>
      match a.obstacle? s kind m with
      | some fault => .error fault
      | none => .ok true
    | none =>
      let next := a.follow s followed stack (a.moves s)
      acceptsFrom kind next.1 next.2
termination_by stack => a.fresh followed + stack.length
decreasing_by
  have := a.follow_le (fun _ h => h) followed stack (s := s)
  simp only [List.length_cons]
  omega

/-- A token of the given kind may come next from `s`. -/
def accepts (s : Nat) (kind : Option Int) : Except Fault Bool := a.acceptsFrom kind [] [s]

end Automaton
end Typeahead
